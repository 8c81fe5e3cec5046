import CloudDisk.TracedMemory
import CloudDisk.UploadProcesses

/-! # Trimming a string in place

`trim_space` walks over the blanks at both ends of a string and moves what is between them to the
front. The last character is looked for at the index `strlen - 1`, before anything is known about
the string: in an empty one, which is what `upload_to_dstorage` has when the storage printed
nothing, that is the byte in front of the array. -/
namespace TextTrims

open ByteStrings CheckedCode TracedMemory DiskHandlers RequestLoops
open UploadProcesses (FarApart trimmed)

def strlen : Traced UInt8 ℕ := fun m => scan .outOfBounds (fun b => b = 0) m.size 0 m

def fill : ℕ → ℤ → Traced UInt8 Unit
  | 0, _ => pure ()
  | n + 1, dst => do
    store dst 0
    fill n (dst + 1)

def copy : ℕ → ℤ → ℤ → Traced UInt8 Unit
  | 0, _, _ => pure ()
  | n + 1, dst, src => do
    let x ← load src
    store dst x
    if x = 0 then fill n (dst + 1)
    else copy n (dst + 1) (src + 1)

/-- The order in which `strncpy` moves the bytes is open, so the two places must not overlap. Only
where they are the same place does every order leave the same. -/
def strncpy (n : ℕ) (dst src : ℤ) : Traced UInt8 Unit :=
  if dst ≠ src ∧ dst < src + n ∧ src < dst + n then throw .overlap else copy n dst src

/-- What `trim_space` does once both ends are known. -/
def moveFront (i j : ℤ) : Traced UInt8 ℤ := do
  let count ← asInt ((← asInt (j - i)) + 1)
  -- a negative number is a `size_t` beyond any array
  if count < 0 then throw .overflow
  else do
    strncpy count.toNat 0 i
    store count 0
    return 0

def trimSpace : Traced UInt8 ℤ := do
  let j := toInt32 ((← strlen) - 1)
  -- the index is an `int`
  let i ← scan .overflow (fun b => !(isSpace b && b ≠ 0)) (2 ^ 31) 0
  let j ← scanDown (fun b => !isSpace b) (j - i).toNat j
  moveFront i j

structure HoldsText (m : Memory UInt8) (s : CString) : Prop where
  fits : s.length < m.size
  plain : 0 ∉ s
  chars : ∀ (i : ℕ) (b : UInt8), s[i]? = some b → m.cells i = b
  nul : m.cells s.length = 0

/-! ## Moving the text -/

section Move
variable {m : Memory UInt8} {s t : CString} {n : ℕ} {dst src : ℤ}

theorem copy_eq (hle : dst ≤ src) (h0 : 0 ∉ t)
    (hchars : ∀ (r : ℕ) (b : UInt8), t[r]? = some b → m.cells (src + r) = b) :
    ∃ m', copy t.length dst src m = .ok ((), m') ∧ m'.size = m.size ∧
      (∀ (r : ℕ) (b : UInt8), t[r]? = some b → m'.cells (dst + r) = b) ∧
      (∀ p, p < dst → m'.cells p = m.cells p) ∧
      ∀ p ∈ m'.touched, p ∈ m.touched ∨ dst ≤ p ∧ p < src + t.length := by
  induction t generalizing m dst src with
  | nil => exact ⟨m, rfl, rfl, by simp, fun _ _ => rfl, fun p hp => Or.inl hp⟩
  | cons x t ih =>
    have hx : m.cells src = x := by simpa using hchars 0 x rfl
    have hx0 : x ≠ 0 := fun h => h0 (h ▸ List.mem_cons_self)
    have hrest : ∀ (r : ℕ) (b : UInt8), t[r]? = some b →
        ((m.touch [src]).put dst x).cells (src + 1 + r) = b := by
      intro r b hb
      rw [put_cells_of_ne x (by omega), touch_cells, next_position]
      exact hchars (r + 1) b hb
    obtain ⟨m', hrun, hsize, hcells, hbelow, htouched⟩ :=
      @ih ((m.touch [src]).put dst x) (dst + 1) (src + 1) (by omega)
        (fun h => h0 (List.mem_cons_of_mem x h)) hrest
    refine ⟨m', ?_, hsize, ?_, ?_, ?_⟩
    · rw [List.length_cons, copy, run_load, hx, run_store, if_neg hx0]
      exact hrun
    · intro r b hb
      cases r with
      | zero =>
        rw [Int.ofNat_zero, Int.add_zero, hbelow dst (by omega), put_cells_self]
        simpa using hb
      | succ r =>
        rw [← next_position]
        exact hcells r b (by simpa using hb)
    · intro p hp
      rw [hbelow p (by omega), put_cells_of_ne x (by omega), touch_cells]
    · intro p hp
      rw [List.length_cons]
      rcases htouched p hp with hp | hp
      · simp only [put_touched, touch_touched, List.mem_cons, List.cons_append,
          List.nil_append] at hp
        rcases hp with rfl | rfl | hp
        · exact Or.inr ⟨le_rfl, by omega⟩
        · exact Or.inr ⟨hle, by omega⟩
        · exact Or.inl hp
      · exact Or.inr ⟨by omega, by omega⟩

/-- Whatever is met, the copy ends, and nothing is taken off the record. -/
theorem fill_ends : ∃ m', fill n dst m = .ok ((), m') ∧ m.touched ⊆ m'.touched := by
  induction n generalizing m dst with
  | zero => exact ⟨m, rfl, List.Subset.refl _⟩
  | succ n ih =>
    obtain ⟨m', hrun, hsub⟩ := @ih (m.put dst 0) (dst + 1)
    refine ⟨m', ?_, fun p hp => hsub (List.mem_cons_of_mem dst hp)⟩
    rw [fill, run_store]
    exact hrun

theorem copy_ends : ∃ m', copy n dst src m = .ok ((), m') ∧ m.touched ⊆ m'.touched := by
  induction n generalizing m dst src with
  | zero => exact ⟨m, rfl, List.Subset.refl _⟩
  | succ n ih =>
    have hgrow : m.touched ⊆ ((m.touch [src]).put dst (m.cells src)).touched := by
      intro p hp
      simp [hp]
    rw [copy, run_load, run_store]
    by_cases hx : m.cells src = 0
    · rw [if_pos hx]
      obtain ⟨m', hrun, hsub⟩ :=
        @fill_ends ((m.touch [src]).put dst (m.cells src)) n (dst + 1)
      exact ⟨m', hrun, fun p hp => hsub (hgrow hp)⟩
    · rw [if_neg hx]
      obtain ⟨m', hrun, hsub⟩ := @ih ((m.touch [src]).put dst (m.cells src)) (dst + 1) (src + 1)
      exact ⟨m', hrun, fun p hp => hsub (hgrow hp)⟩

theorem strncpy_down {i : ℤ} (hi : 0 ≤ i) :
    (i = 0 ∨ (n : ℤ) ≤ i) ∧ strncpy n 0 i = copy n 0 i ∨
      ¬ (i = 0 ∨ (n : ℤ) ≤ i) ∧ strncpy n 0 i = throw .overlap := by
  rw [strncpy]
  by_cases h : i = 0 ∨ (n : ℤ) ≤ i
  · exact .inl ⟨h, if_neg (by omega)⟩
  · exact .inr ⟨h, if_pos (by omega)⟩

theorem run_lift {α γ : Type} {c : Checked α} {f : α → Traced UInt8 γ} {a : α} (h : c = .ok a) :
    ((liftM c : Traced UInt8 α) >>= f) m = f a m := by
  subst h
  rfl

theorem run_lift_error {α γ : Type} {c : Checked α} {f : α → Traced UInt8 γ} {e : Fault}
    (h : c = .error e) : ((liftM c : Traced UInt8 α) >>= f) m = .error e := by
  subst h
  rfl

theorem moveFront_eq {i : ℤ} (hi : 0 ≤ i) (hapart : i = 0 ∨ (t.length : ℤ) ≤ i) (h0 : 0 ∉ t)
    (hlen : t.length < 2 ^ 31) (hfits : t.length < m.size)
    (hchars : ∀ (r : ℕ) (b : UInt8), t[r]? = some b → m.cells (i + r) = b) :
    ∃ m', moveFront i (i + t.length - 1) m = .ok (0, m') ∧ HoldsText m' t ∧
      ∀ p ∈ m'.touched, p ∈ m.touched ∨ 0 ≤ p ∧ p ≤ i + t.length := by
  obtain ⟨m', hrun, hsize, hcells, -, htouched⟩ := @copy_eq m t 0 i hi h0 hchars
  obtain ⟨-, hcopy⟩ | ⟨hoverlap, -⟩ := @strncpy_down t.length i hi
  swap
  · exact absurd hapart hoverlap
  rw [← hcopy] at hrun
  have hfirst : IsInt (i + t.length - 1 - i) := ⟨by omega, by omega⟩
  have hcount : i + t.length - 1 - i + 1 = t.length := by omega
  have hsecond : IsInt (t.length : ℤ) := ⟨by omega, by omega⟩
  refine ⟨m'.put t.length 0, ?_, ⟨?_, h0, ?_, put_cells_self _ _⟩, ?_⟩
  · rw [moveFront, run_lift (asInt_eq hfirst), hcount, run_lift (asInt_eq hsecond),
      if_neg (by omega), Int.toNat_natCast, run_bind hrun, run_store]
    rfl
  · rw [put_size, hsize]
    exact hfits
  · intro r b hb
    have hr : r < t.length := (List.getElem?_eq_some_iff.mp hb).1
    rw [put_cells_of_ne 0 (by omega)]
    simpa using hcells r b hb
  · intro p hp
    rw [put_touched, List.mem_cons] at hp
    rcases hp with rfl | hp
    · exact Or.inr ⟨by omega, by omega⟩
    · rcases htouched p hp with hp | hp
      · exact Or.inl hp
      · exact Or.inr ⟨hp.1, by omega⟩

/-- Where it ends, there is a NUL behind as many characters as there are positions from `i` to
`j`, and their number is an `int`. -/
theorem moveFront_ends {i j : ℤ} {x : ℤ} {m' : Memory UInt8} (hi : 0 ≤ i)
    (h : moveFront i j m = .ok (x, m')) :
    0 ≤ j - i + 1 ∧ j - i + 1 < 2 ^ 31 ∧ (i = 0 ∨ j - i + 1 ≤ i) ∧ m'.cells (j - i + 1) = 0 ∧
      m.touched ⊆ m'.touched := by
  by_cases hfirst : IsInt (j - i)
  · by_cases hsecond : IsInt (j - i + 1)
    · rw [moveFront, run_lift (asInt_eq hfirst), run_lift (asInt_eq hsecond)] at h
      by_cases hneg : j - i + 1 < 0
      · rw [if_pos hneg] at h
        cases h
      · rw [if_neg hneg] at h
        obtain ⟨hapart, hcopy⟩ | ⟨-, hthrow⟩ := @strncpy_down (j - i + 1).toNat i hi
        · obtain ⟨m₁, hrun, hsub⟩ := @copy_ends m (j - i + 1).toNat 0 i
          rw [hcopy, run_bind hrun, run_store] at h
          cases h
          refine ⟨by omega, hsecond.2, by omega, put_cells_self _ _, fun p hp => ?_⟩
          exact List.mem_cons_of_mem _ (hsub hp)
        · rw [hthrow] at h
          cases h
    · have herror : asInt (j - i + 1) = .error .overflow := if_neg hsecond
      rw [moveFront, run_lift (asInt_eq hfirst), run_lift_error herror] at h
      cases h
  · have herror : asInt (j - i) = .error .overflow := if_neg hfirst
    rw [moveFront, run_lift_error herror] at h
    cases h

end Move

/-! ## The two ends -/

/-- A string as the blanks in front of its text, the text, and the blanks behind it. -/
structure Split (s a t c : CString) : Prop where
  text : s = a ++ t ++ c
  front : ∀ b ∈ a, isSpace b = true
  back : ∀ b ∈ c, isSpace b = true
  first : ∀ b, t.head? = some b → isSpace b = false
  last : ∀ b, t.getLast? = some b → isSpace b = false
  whole : t = [] → c = []

section Ends
variable {m : Memory UInt8} {s a t c : CString}

theorem head_dropWhile {b : UInt8} (h : (s.dropWhile isSpace).head? = some b) :
    isSpace b = false := by
  have hnot := List.head?_dropWhile_not isSpace s
  rw [h] at hnot
  exact hnot

theorem exists_split (s : CString) :
    ∃ c, Split s (s.takeWhile isSpace) (UploadProcesses.trimSpace s) c := by
  have htext : s.dropWhile isSpace = UploadProcesses.trimSpace s ++
      ((s.dropWhile isSpace).reverse.takeWhile isSpace).reverse := by
    rw [UploadProcesses.trimSpace, ← List.reverse_append, List.takeWhile_append_dropWhile,
      List.reverse_reverse]
  have hlast : ∀ b, (UploadProcesses.trimSpace s).getLast? = some b → isSpace b = false := by
    intro b hb
    rw [UploadProcesses.trimSpace, List.getLast?_reverse] at hb
    exact head_dropWhile hb
  have hwhole : UploadProcesses.trimSpace s = [] → s.dropWhile isSpace = [] := by
    intro h
    have hblank : ∀ b ∈ s.dropWhile isSpace, isSpace b = true := by
      rw [UploadProcesses.trimSpace, List.reverse_eq_nil_iff, List.dropWhile_eq_nil_iff] at h
      exact fun b hb => h b (List.mem_reverse.mpr hb)
    cases hd : s.dropWhile isSpace with
    | nil => rfl
    | cons b u =>
      have hfirst : isSpace b = false := head_dropWhile (by rw [hd]; rfl)
      rw [hblank b (by rw [hd]; exact List.mem_cons_self)] at hfirst
      cases hfirst
  refine ⟨((s.dropWhile isSpace).reverse.takeWhile isSpace).reverse, ?_, ?_, ?_, ?_, hlast, ?_⟩
  · rw [List.append_assoc, ← htext, List.takeWhile_append_dropWhile]
  · exact fun b hb => List.mem_takeWhile_imp hb
  · exact fun b hb => List.mem_takeWhile_imp (List.mem_reverse.mp hb)
  · intro b hb
    apply @head_dropWhile s b
    rw [htext, List.head?_append, hb]
    rfl
  · intro h
    rw [hwhole h]
    rfl

theorem split_self (hs : Split s a t c) : Split t [] t [] := by
  exact ⟨by simp, by simp, by simp, hs.first, hs.last, fun _ => rfl⟩

theorem strlen_eq (h : HoldsText m s) : strlen m = .ok (s.length, m.touch (upward 0 s.length)) := by
  refine scan_eq h.fits (fun i hi => ?_) ?_
  · have hcell := h.chars i s[i] (List.getElem?_eq_getElem hi)
    have hne : s[i] ≠ 0 := fun h0 => h.plain (h0 ▸ List.getElem_mem hi)
    rw [Int.zero_add, hcell]
    exact decide_eq_false hne
  · rw [Int.zero_add, h.nul]
    rfl

theorem HoldsText.touch (h : HoldsText m s) (l : List ℤ) : HoldsText (m.touch l) s :=
  ⟨h.fits, h.plain, h.chars, h.nul⟩

theorem Split.length_eq (hs : Split s a t c) : s.length = a.length + t.length + c.length := by
  rw [hs.text, List.length_append, List.length_append]

theorem Split.drop_text (hs : Split s a t c) : s.drop (a.length + t.length) = c := by
  rw [hs.text, ← List.length_append, List.drop_left]

/-! The cells of the three parts. -/

theorem cell_front (h : HoldsText m s) (hs : Split s a t c) {i : ℕ} (hi : i < a.length) :
    isSpace (m.cells i) = true := by
  have hget : s[i]? = some a[i] := by
    rw [hs.text, List.append_assoc, List.getElem?_append_left hi, List.getElem?_eq_getElem hi]
  rw [h.chars i _ hget]
  exact hs.front _ (List.getElem_mem hi)

theorem cell_text (h : HoldsText m s) (hs : Split s a t c) {r : ℕ} {b : UInt8}
    (hb : t[r]? = some b) : m.cells (a.length + r) = b := by
  have hr : r < t.length := (List.getElem?_eq_some_iff.mp hb).1
  have hget : s[a.length + r]? = some b := by
    rw [hs.text, List.append_assoc, List.getElem?_append_right (by omega), Nat.add_sub_cancel_left,
      List.getElem?_append_left hr, hb]
  have hcell := h.chars _ b hget
  rwa [Int.natCast_add] at hcell

theorem cell_back (h : HoldsText m s) (hs : Split s a t c) {i : ℕ} (hlow : a.length + t.length ≤ i)
    (hhigh : i < s.length) : isSpace (m.cells i) = true := by
  have hlen := hs.length_eq
  have hi : i - (a ++ t).length < c.length := by
    rw [List.length_append]
    omega
  have hget : s[i]? = some (c.get ⟨i - (a ++ t).length, hi⟩) := by
    rw [hs.text, List.getElem?_append_right (by rw [List.length_append]; exact hlow),
      List.getElem?_eq_getElem hi]
    rfl
  rw [h.chars i _ hget]
  exact hs.back _ (List.get_mem c _)

theorem cell_stop (h : HoldsText m s) (hs : Split s a t c) :
    isSpace (m.cells a.length) = false := by
  cases t with
  | nil =>
    have hlen := hs.length_eq
    rw [hs.whole rfl, List.length_nil, Nat.add_zero] at hlen
    rw [← hlen, h.nul]
    rfl
  | cons b t =>
    have hcell : m.cells (a.length + (0 : ℕ)) = b := cell_text h hs rfl
    rw [Int.ofNat_zero, Int.add_zero] at hcell
    rw [hcell]
    exact hs.first b rfl

theorem cell_last (h : HoldsText m s) (hs : Split s a t c) (ht : t ≠ []) :
    isSpace (m.cells (a.length + t.length - 1)) = false := by
  have hpos : 0 < t.length := List.length_pos_of_ne_nil ht
  have hget : t[t.length - 1]? = some (t.getLast ht) := by
    rw [List.getElem?_eq_getElem (by omega), List.getLast_eq_getElem]
  have hcell := cell_text h hs hget
  rw [show (a.length + t.length - 1 : ℤ) = a.length + (t.length - 1 : ℕ) by omega, hcell]
  exact hs.last _ (List.getLast?_eq_some_getLast ht)

/-- A NUL is no blank, so the second test of the walk from the front never counts. -/
theorem front_goes_on {b : UInt8} (h : isSpace b = true) : (!(isSpace b && b ≠ 0)) = false := by
  have hne : b ≠ 0 := fun h0 => by simp [h0, isSpace] at h
  simp [h, hne]

theorem front_eq (h : HoldsText m s) (hs : Split s a t c) (ha : a.length < 2 ^ 31) :
    scan .overflow (fun b => !(isSpace b && b ≠ 0)) (2 ^ 31) 0 m =
      .ok (a.length, m.touch (upward 0 a.length)) := by
  refine scan_eq ha (fun i hi => ?_) ?_
  · rw [Int.zero_add]
    exact front_goes_on (cell_front h hs hi)
  · simp [cell_stop h hs]

theorem front_error (h : HoldsText m s) (hs : Split s a t c) (ha : 2 ^ 31 ≤ a.length) :
    scan .overflow (fun b => !(isSpace b && b ≠ 0)) (2 ^ 31) 0 m = .error .overflow := by
  apply scan_error
  intro i hi
  rw [Int.zero_add]
  exact front_goes_on (cell_front h hs (Nat.lt_of_lt_of_le hi ha))

/-- `strlen(inbuf) - 1` as an `int`. -/
def lastIndex (s : CString) : ℤ := toInt32 (s.length - 1)

theorem trimSpace_run (h : HoldsText m s) (hs : Split s a t c) (ha : a.length < 2 ^ 31) :
    ∃ n ≤ (lastIndex s - a.length).toNat, (∀ r < n, isSpace (m.cells (lastIndex s - r)) = true) ∧
      (n = (lastIndex s - a.length).toNat ∨ isSpace (m.cells (lastIndex s - n)) = false) ∧
      trimSpace m = moveFront a.length (lastIndex s - n)
        (m.touch (downward (lastIndex s) n ++ upward 0 a.length ++ upward 0 s.length)) := by
  obtain ⟨n, hn, hgo, hend, hrun⟩ := @scanDown_eq UInt8
    ((m.touch (upward 0 s.length)).touch (upward 0 a.length)) (fun b => !isSpace b)
    (lastIndex s - a.length).toNat (lastIndex s)
  refine ⟨n, hn, fun r hr => by simpa using hgo r hr, by simpa using hend, ?_⟩
  rw [trimSpace, run_bind (strlen_eq h), run_bind (front_eq (h.touch _) hs ha)]
  apply (run_bind hrun).trans
  rw [touch_touch, touch_touch]

theorem steps_down (h : HoldsText m s) (hs : Split s a t c) {n : ℕ}
    (hgo : ∀ r < n, isSpace (m.cells (lastIndex s - r)) = true)
    (hend : n = (lastIndex s - a.length).toNat ∨ isSpace (m.cells (lastIndex s - n)) = false)
    (ht : t ≠ []) (hlow : a.length + t.length ≤ lastIndex s + 1) (hhigh : lastIndex s < s.length) :
    lastIndex s - n = a.length + t.length - 1 := by
  have hpos : 0 < t.length := List.length_pos_of_ne_nil ht
  obtain ⟨d, hd⟩ : ∃ d : ℕ, lastIndex s - d = a.length + t.length - 1 :=
    ⟨(lastIndex s - (a.length + t.length - 1)).toNat, by omega⟩
  have hblank : ∀ r < d, isSpace (m.cells (lastIndex s - r)) = true := by
    intro r hr
    obtain ⟨i, hi⟩ : ∃ i : ℕ, lastIndex s - r = i := ⟨(lastIndex s - r).toNat, by omega⟩
    rw [hi]
    exact cell_back h hs (by omega) (by omega)
  have hlast := cell_last h hs ht
  rw [← hd] at hlast
  have hle : n ≤ d := by
    by_contra hlt
    rw [hgo d (by omega)] at hlast
    cases hlast
  have hge : d ≤ n := by
    by_contra hlt
    rcases hend with hall | hstop
    · omega
    · rw [hblank n (by omega)] at hstop
      cases hstop
  omega

theorem trimSpace_good (h : HoldsText m s) (hs : Split s a t c) (ha : a.length < 2 ^ 31)
    (hapart : a.length = 0 ∨ t.length ≤ a.length) (hlen : t.length < 2 ^ 31)
    (hempty : t = [] → lastIndex s = a.length - 1)
    (htext : t ≠ [] → a.length + t.length ≤ lastIndex s + 1 ∧ lastIndex s < s.length) :
    ∃ m', trimSpace m = .ok (0, m') ∧ HoldsText m' t ∧
      ∀ p ∈ m'.touched, p ∈ m.touched ∨ (0 ≤ p ∧ p ≤ s.length) ∨ p = lastIndex s := by
  have hparts := hs.length_eq
  obtain ⟨n, hn, hgo, hend, hrun⟩ := trimSpace_run h hs ha
  have hj : lastIndex s - n = a.length + t.length - 1 := by
    by_cases ht : t = []
    · have hindex := hempty ht
      rw [ht, List.length_nil]
      omega
    · exact steps_down h hs hgo hend ht (htext ht).1 (htext ht).2
  have h0 : 0 ∉ t := fun h0 => h.plain (by rw [hs.text]; simp [h0])
  obtain ⟨m', hmove, hholds, htouched⟩ := @moveFront_eq
    (m.touch (downward (lastIndex s) n ++ upward 0 a.length ++ upward 0 s.length)) t a.length
    (by omega) (by omega) h0 hlen (by have := h.fits; rw [touch_size]; omega)
    fun r b hb => cell_text h hs hb
  refine ⟨m', ?_, hholds, fun p hp => ?_⟩
  · rw [hrun, hj, hmove]
  · rcases htouched p hp with hp | hp
    · rw [touch_touched, List.mem_append, List.mem_append, List.mem_append, mem_downward,
        mem_upward,
        mem_upward] at hp
      rcases hp with ((hp | hp) | hp) | hp
      · -- the walk down stays in the string, or looks at the last index alone
        by_cases ht : t = []
        · have hindex := hempty ht
          exact Or.inr (Or.inr (by omega))
        · have hbounds := htext ht
          have hpos : 0 < t.length := List.length_pos_of_ne_nil ht
          exact Or.inr (Or.inl ⟨by omega, by omega⟩)
      · exact Or.inr (Or.inl ⟨by omega, by omega⟩)
      · exact Or.inr (Or.inl ⟨by omega, by omega⟩)
      · exact Or.inl hp
    · exact Or.inr (Or.inl ⟨by omega, by omega⟩)

/-- Where it ends, it has looked at the last index, and a NUL is no further from the front than
that is from the first character of the text. -/
theorem trimSpace_ends (h : HoldsText m s) (hs : Split s a t c) {x : ℤ} {m' : Memory UInt8}
    (hrun : trimSpace m = .ok (x, m')) :
    a.length < 2 ^ 31 ∧ lastIndex s ∈ m'.touched ∧ ∃ count : ℕ, count < 2 ^ 31 ∧
      (count : ℤ) ≤ lastIndex s - a.length + 1 ∧ (a.length = 0 ∨ count ≤ a.length) ∧
      m'.cells count = 0 := by
  by_cases ha : a.length < 2 ^ 31
  · obtain ⟨n, -, -, -, hmove⟩ := trimSpace_run h hs ha
    rw [hmove] at hrun
    obtain ⟨hcount, hint, hapart, hnul, hsub⟩ := moveFront_ends (by omega) hrun
    refine ⟨ha, hsub ?_, (lastIndex s - n - a.length + 1).toNat, by omega, by omega, by omega, ?_⟩
    · rw [touch_touched, List.mem_append, List.mem_append, List.mem_append, mem_downward]
      exact Or.inl (Or.inl (Or.inl ⟨by omega, le_rfl⟩))
    · rwa [Int.toNat_of_nonneg hcount]
  · rw [trimSpace, run_bind (strlen_eq h),
      run_bind_error (front_error (h.touch _) hs (by omega))] at hrun
    cases hrun

end Ends

/-! ## When the string is trimmed -/

/-- The string without its blanks at both ends is left in the array, a second call leaves the
same, and only the string and its NUL have been looked at or written. -/
def Trims (s : CString) (m : Memory UInt8) : Prop :=
  ∃ m', trimSpace m = .ok (0, m') ∧ HoldsText m' (UploadProcesses.trimSpace s) ∧
    (∃ m'', trimSpace m' = .ok (0, m'') ∧ HoldsText m'' (UploadProcesses.trimSpace s)) ∧
    ∀ p ∈ m'.touched, 0 ≤ p ∧ p ≤ s.length

/-- In a string of 2 GiB or more only the part up to the last index, as an `int`, is seen. -/
structure SeenWhole (s : CString) : Prop where
  some_text : ∃ b ∈ s, isSpace b = false
  int_index : (s.length - 1) % 2 ^ 32 < 2 ^ 31
  blank_behind : ∀ b ∈ s.drop ((s.length - 1) % 2 ^ 32 + 1), isSpace b = true
  -- a text of exactly `2 ^ 31` characters has a length that is no `int`
  blank_end : ∀ b b', s[0]? = some b → s[2 ^ 31 - 1]? = some b' →
    isSpace b = true ∨ isSpace b' = true

section Trims
variable {m : Memory UInt8} {s : CString}

theorem lastIndex_eq (hne : s ≠ []) (h : s.length < 2 ^ 31) : lastIndex s = s.length - 1 := by
  have hpos : 0 < s.length := List.length_pos_of_ne_nil hne
  exact toInt32_eq (by omega) (by omega)

theorem Split.text_ne_nil {a t c : CString} (hs : Split s a t c) :
    t ≠ [] ↔ ∃ b ∈ s, isSpace b = false := by
  constructor
  · intro ht
    obtain ⟨b, u, rfl⟩ := List.exists_cons_of_ne_nil ht
    exact ⟨b, by rw [hs.text]; simp, hs.first b rfl⟩
  · rintro ⟨b, hb, hblank⟩ rfl
    rw [hs.text, hs.whole rfl, List.append_nil, List.append_nil] at hb
    rw [hs.front b hb] at hblank
    cases hblank

theorem SeenWhole.text_le {a t c : CString} (h : SeenWhole s) (hs : Split s a t c) :
    a.length + t.length ≤ (s.length - 1) % 2 ^ 32 + 1 := by
  have ht : t ≠ [] := hs.text_ne_nil.mpr h.some_text
  obtain ⟨u, b, rfl⟩ : ∃ u b, t = u ++ [b] := ⟨_, _, (List.dropLast_append_getLast ht).symm⟩
  by_contra hlt
  rw [List.length_append, List.length_singleton] at hlt
  have hmem : ∀ k ≤ a.length + u.length, b ∈ s.drop k := by
    intro k hk
    rw [← List.length_append] at hk
    rw [hs.text, ← List.append_assoc a, List.append_assoc (a ++ u),
      List.drop_append_of_le_length hk]
    simp
  have hblank := h.blank_behind b (hmem _ (by omega))
  rw [hs.last b (by simp)] at hblank
  cases hblank

theorem SeenWhole.length_lt {a t c : CString} (h : SeenWhole s) (hs : Split s a t c) :
    t.length < 2 ^ 31 := by
  have hle := h.text_le hs
  have hint := h.int_index
  have ht : t ≠ [] := hs.text_ne_nil.mpr h.some_text
  by_contra hlt
  have ha : a = [] := List.eq_nil_of_length_eq_zero (by omega)
  subst ha
  have hat : ∀ i < t.length, s[i]? = t[i]? := by
    intro i hi
    rw [hs.text, List.nil_append, List.getElem?_append_left hi]
  have hfirst : s[0]? = some (t.head ht) := by
    rw [hat 0 (by omega), ← List.head?_eq_getElem?, List.head?_eq_some_head ht]
  have hlast : s[2 ^ 31 - 1]? = some (t.getLast ht) := by
    rw [hat _ (by omega), ← List.getLast?_eq_some_getLast ht, List.getLast?_eq_getElem?]
    congr 1
    omega
  rcases h.blank_end _ _ hfirst hlast with hblank | hblank
  · rw [hs.first _ (List.head?_eq_some_head ht)] at hblank
    cases hblank
  · rw [hs.last _ (List.getLast?_eq_some_getLast ht)] at hblank
    cases hblank

theorem blank_end_of_length {a t c : CString} (hs : Split s a t c) (hlen : t.length < 2 ^ 31)
    (b b' : UInt8) (hb : s[0]? = some b) (hb' : s[2 ^ 31 - 1]? = some b') :
    isSpace b = true ∨ isSpace b' = true := by
  cases a with
  | nil =>
    right
    apply hs.back b'
    rw [hs.text, List.nil_append, List.getElem?_append_right (by omega)] at hb'
    exact List.mem_of_getElem? hb'
  | cons x a =>
    left
    rw [hs.text] at hb
    obtain rfl : x = b := by simpa using hb
    exact hs.front x List.mem_cons_self

theorem lastIndex_eq_mod (hpos : 0 < s.length)
    (h : 0 ≤ lastIndex s ∨ (s.length - 1) % 2 ^ 32 < 2 ^ 31) :
    lastIndex s = ((s.length - 1) % 2 ^ 32 : ℕ) := by
  obtain ⟨hlow, hhigh, q, hq⟩ := toInt32_spec (s.length - 1)
  change 0 ≤ toInt32 (s.length - 1) ∨ _ at h
  change toInt32 (s.length - 1) = _
  omega

theorem trims_of_good {a c : CString} (hm : HoldsText m s) (hlog : m.touched = [])
    (hs : Split s a (UploadProcesses.trimSpace s) c) (ha : a.length < 2 ^ 31)
    (hapart : a.length = 0 ∨ (UploadProcesses.trimSpace s).length ≤ a.length)
    (hlen : (UploadProcesses.trimSpace s).length < 2 ^ 31) (hindex : 0 ≤ lastIndex s)
    (hlast : lastIndex s < s.length)
    (hempty : UploadProcesses.trimSpace s = [] → lastIndex s = a.length - 1)
    (htext : UploadProcesses.trimSpace s ≠ [] →
      a.length + (UploadProcesses.trimSpace s).length ≤ lastIndex s + 1) : Trims s m := by
  obtain ⟨m', hrun, hholds, htouched⟩ :=
    trimSpace_good hm hs ha hapart hlen hempty fun ht => ⟨htext ht, hlast⟩
  -- the second call finds no blanks, and an empty string where there were only blanks
  have hagain : ∃ m'', trimSpace m' = .ok (0, m'') ∧
      HoldsText m'' (UploadProcesses.trimSpace s) := by
    have hnil : lastIndex [] = -1 := by decide
    obtain ⟨m'', hrun', hholds', -⟩ :=
      trimSpace_good hholds (split_self hs) (by decide) (.inl rfl) hlen
      (fun ht => by rw [ht, hnil]; rfl) fun ht => by
        rw [lastIndex_eq ht hlen, List.length_nil]
        omega
    exact ⟨m'', hrun', hholds'⟩
  refine ⟨m', hrun, hholds, hagain, fun p hp => ?_⟩
  rcases htouched p hp with hp | hp | hp
  · rw [hlog] at hp
    cases hp
  · exact hp
  · omega

theorem trims_of_seen (hm : HoldsText m s) (hlog : m.touched = []) (hne : s ≠ [])
    (hapart : FarApart s) (h : s.length < 2 ^ 31 ∨ SeenWhole s) : Trims s m := by
  obtain ⟨c, hs⟩ := exists_split s
  have hparts := hs.length_eq
  have hpos : 0 < s.length := List.length_pos_of_ne_nil hne
  rcases h with hshort | hseen
  · have hindex := lastIndex_eq hne hshort
    refine trims_of_good hm hlog hs (by omega) hapart (by omega) (by omega) (by omega) ?_ (by omega)
    intro ht
    rw [hs.whole ht, ht, List.length_nil] at hparts
    omega
  · have hindex := lastIndex_eq_mod hpos (Or.inr hseen.int_index)
    have hle := hseen.text_le hs
    have ht : UploadProcesses.trimSpace s ≠ [] := hs.text_ne_nil.mpr hseen.some_text
    have htext : 0 < (UploadProcesses.trimSpace s).length := List.length_pos_of_ne_nil ht
    have hint := hseen.int_index
    have hmod : (s.length - 1) % 2 ^ 32 ≤ s.length - 1 := Nat.mod_le _ _
    exact trims_of_good hm hlog hs (by omega) hapart (hseen.length_lt hs) (by omega) (by omega)
      (fun h => absurd h ht) (by omega)

theorem seen_of_trims (hm : HoldsText m s) (h : Trims s m) :
    s ≠ [] ∧ FarApart s ∧ (s.length < 2 ^ 31 ∨ SeenWhole s) := by
  obtain ⟨c, hs⟩ := exists_split s
  have hparts := hs.length_eq
  obtain ⟨m', hrun, hholds, -, htouched⟩ := h
  obtain ⟨ha, hlast, count, hint, hle, hapart, hnul⟩ := trimSpace_ends hm hs hrun
  have hindex := (htouched _ hlast).1
  have htext : (UploadProcesses.trimSpace s).length ≤ count := by
    by_contra hlt
    have hget : (UploadProcesses.trimSpace s)[count]? = some (UploadProcesses.trimSpace s)[count] :=
      List.getElem?_eq_getElem (by omega)
    rw [hholds.chars count _ hget] at hnul
    exact hholds.plain (hnul ▸ List.getElem_mem _)
  have hne : s ≠ [] := by
    rintro rfl
    exact absurd hindex (by decide)
  have hpos : 0 < s.length := List.length_pos_of_ne_nil hne
  refine ⟨hne, hapart.imp_right htext.trans, ?_⟩
  by_cases hshort : s.length < 2 ^ 31
  · exact Or.inl hshort
  · have hmod := lastIndex_eq_mod hpos (Or.inl hindex)
    have hhigh : lastIndex s < 2 ^ 31 := (toInt32_spec (s.length - 1)).2.1
    refine Or.inr ⟨hs.text_ne_nil.mp fun ht => ?_, by omega, fun b hb => ?_,
      blank_end_of_length hs (by omega)⟩
    · rw [hs.whole ht, ht, List.length_nil] at hparts
      omega
    · apply hs.back b
      have hsub : s.drop ((s.length - 1) % 2 ^ 32 + 1) <:+
          s.drop ((s.takeWhile isSpace).length + (UploadProcesses.trimSpace s).length) :=
        List.drop_suffix_drop_left s (by omega)
      rw [hs.drop_text] at hsub
      exact hsub.subset hb

/-- What `upload_to_dstorage` is taken to make of the name it has read. -/
theorem trimmed_iff (hm : HoldsText m s) (hlog : m.touched = []) (hne : s ≠ [])
    (hlen : s.length < 2 ^ 31) :
    Returns (trimmed s) (· = UploadProcesses.trimSpace s) ↔ Trims s m := by
  rw [trimmed]
  split
  next hapart => exact iff_of_true ⟨_, rfl, rfl⟩ (trims_of_seen hm hlog hne hapart (.inl hlen))
  next hnear => exact iff_of_false returns_throw fun htrims => hnear (seen_of_trims hm htrims).2.1

end Trims

/-- Of the strings shorter than 2 GiB those are trimmed that are not empty and whose text is moved
by its own length or not at all, and of the longer ones those whose text is seen besides. -/
theorem trimSpace_iff (s : CString) (m : Memory UInt8) (hm : HoldsText m s)
    (hlog : m.touched = []) :
    Trims s m ↔ s ≠ [] ∧ FarApart s ∧ (s.length < 2 ^ 31 ∨ SeenWhole s) :=
  ⟨seen_of_trims hm, fun h => trims_of_seen hm hlog h.1 h.2.1 h.2.2⟩

def blankAround : Memory UInt8 := ⟨4, fun p => [32, 97, 32].getD p.toNat 0, []⟩

theorem trimSpace_iff_a : HoldsText blankAround [32, 97, 32] ∧ Trims [32, 97, 32] blankAround := by
  have hm : HoldsText blankAround [32, 97, 32] := by
    refine ⟨by decide, by decide, fun i b hb => ?_, rfl⟩
    simp [blankAround, hb]
  exact ⟨hm, (trimSpace_iff [32, 97, 32] blankAround hm rfl).mpr
    ⟨by simp, Or.inr (by decide), Or.inl (by decide)⟩⟩

def blankInFront : Memory UInt8 := ⟨4, fun p => [32, 97, 98].getD p.toNat 0, []⟩

/-- In an array of zeros, the byte in front of it is looked at; a blank in front of two letters
makes them overlap with the place they are copied to. -/
theorem trimSpace_empty :
    ((trimSpace ⟨512, fun _ => 0, []⟩).toOption.map fun r => decide (-1 ∈ r.2.touched)) =
      some true ∧
      (HoldsText ⟨512, fun _ => 0, []⟩ [] ∧ ¬ Trims [] ⟨512, fun _ => 0, []⟩) ∧
      HoldsText blankInFront [32, 97, 98] ∧ ¬ Trims [32, 97, 98] blankInFront := by
  have hm : HoldsText ⟨512, fun _ => 0, []⟩ [] := ⟨by decide, by decide, by simp, rfl⟩
  have hm' : HoldsText blankInFront [32, 97, 98] := by
    refine ⟨by decide, by decide, fun i b hb => ?_, rfl⟩
    simp [blankInFront, hb]
  have hnear : ¬ FarApart [32, 97, 98] := by
    rw [FarApart]
    decide
  exact ⟨by decide +kernel, ⟨hm, fun h => (seen_of_trims hm h).1 rfl⟩, hm',
    fun h => hnear (seen_of_trims hm' h).2.1⟩

end TextTrims
