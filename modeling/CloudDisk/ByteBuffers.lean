import CloudDisk.ByteStrings
import CloudDisk.CheckedCode

/-! # Arrays of `char`

A buffer keeps the number of bytes it was declared with. It is written byte by byte, and the
first byte behind its end is a fault. Reading it as a string is a fault unless a NUL is in it. -/
namespace ByteBuffers

open ByteStrings CheckedCode

structure Buffer (n : ℕ) where
  bytes : List UInt8
  length_eq : bytes.length = n

namespace Buffer
variable {n : ℕ}

/-- `char buf[n] = {0}`. -/
def zeroed (n : ℕ) : Buffer n := ⟨List.replicate n 0, List.length_replicate⟩

def set (b : Buffer n) (i : ℕ) (x : UInt8) : Buffer n :=
  ⟨b.bytes.set i x, by rw [List.length_set, b.length_eq]⟩

def put (b : Buffer n) (i : ℕ) (x : UInt8) : Checked (Buffer n) :=
  if i < n then pure (b.set i x) else throw .overflow

def write : Buffer n → ℕ → List UInt8 → Checked (Buffer n)
  | b, _, [] => pure b
  | b, i, x :: xs => do (← b.put i x).write (i + 1) xs

def strcpy (b : Buffer n) (s : CString) : Checked (Buffer n) := b.write 0 (s ++ [0])

/-- The string, cut or filled up with NULs to `k` bytes. -/
def strncpy (b : Buffer n) (s : CString) (k : ℕ) : Checked (Buffer n) :=
  b.write 0 (s.take k ++ List.replicate (k - s.length) 0)

def text (b : Buffer n) : Checked CString :=
  if 0 ∈ b.bytes then pure (untilNul b.bytes) else throw .outOfBounds

/-- At most `k` bytes of the string, and a NUL, behind the string that is there. -/
def strncat (b : Buffer n) (s : CString) (k : ℕ) : Checked (Buffer n) := do
  let text ← b.text
  b.write text.length (s.take k ++ [0])

def Holds (b : Buffer n) (s : CString) : Prop := ∃ junk, b.bytes = s ++ 0 :: junk

/-! ## What is written -/

def overlay : Buffer n → ℕ → List UInt8 → Buffer n
  | b, _, [] => b
  | b, i, x :: xs => (b.set i x).overlay (i + 1) xs

theorem returns_put {b : Buffer n} {i : ℕ} {x : UInt8} {Q : Buffer n → Prop} :
    Returns (b.put i x) Q ↔ i < n ∧ Q (b.set i x) := by
  by_cases h : i < n <;> simp [put, h]

theorem returns_write {xs : List UInt8} {b : Buffer n} {i : ℕ} {Q : Buffer n → Prop}
    (hi : i ≤ n) :
    Returns (b.write i xs) Q ↔ i + xs.length ≤ n ∧ Q (b.overlay i xs) := by
  induction xs generalizing b i with
  | nil => simp [write, overlay, hi]
  | cons x xs ih =>
    rw [write, returns_bind, returns_put, List.length_cons, overlay]
    constructor
    · rintro ⟨hlt, h⟩
      obtain ⟨hle, hq⟩ := (ih hlt).mp h
      exact ⟨by omega, hq⟩
    · rintro ⟨hle, hq⟩
      have hlt : i < n := by omega
      exact ⟨hlt, (ih hlt).mpr ⟨by omega, hq⟩⟩

theorem bytes_overlay {xs : List UInt8} {b : Buffer n} {i : ℕ} (h : i + xs.length ≤ n) :
    (b.overlay i xs).bytes = b.bytes.take i ++ xs ++ b.bytes.drop (i + xs.length) := by
  induction xs generalizing b i with
  | nil => simp [overlay]
  | cons x xs ih =>
    rw [List.length_cons] at h
    have hlt : i < b.bytes.length := by
      rw [b.length_eq]
      omega
    have htake : (b.bytes.set i x).take (i + 1) = b.bytes.take i ++ [x] := by
      rw [List.take_succ_eq_append_getElem (by rwa [List.length_set]), List.take_set_of_le le_rfl,
        List.getElem_set_self]
    have hdrop : (b.bytes.set i x).drop (i + (xs.length + 1)) =
        b.bytes.drop (i + (xs.length + 1)) := List.drop_set_of_lt (by omega)
    rw [overlay, ih (by omega)]
    simp only [set, htake, hdrop, List.length_cons, List.append_assoc, List.cons_append,
      List.nil_append, Nat.add_assoc, Nat.add_comm 1]

theorem overlay_append {xs ys : List UInt8} {b : Buffer n} {i : ℕ} :
    b.overlay i (xs ++ ys) = (b.overlay i xs).overlay (i + xs.length) ys := by
  induction xs generalizing b i with
  | nil => rfl
  | cons x xs ih =>
    rw [List.cons_append, overlay, ih, overlay, List.length_cons]
    congr 1
    omega

theorem take_overlay (b : Buffer n) (i : ℕ) (xs : List UInt8) (h : i + xs.length ≤ n) :
    (b.overlay i xs).bytes.take (i + xs.length) = b.bytes.take i ++ xs := by
  have hi : (b.bytes.take i).length = i := by
    rw [List.length_take, b.length_eq]
    omega
  rw [bytes_overlay h]
  apply List.take_left'
  rw [List.length_append, hi]

theorem returns_strcpy {b : Buffer n} {s : CString} {Q : Buffer n → Prop} :
    Returns (b.strcpy s) Q ↔ s.length < n ∧ Q (b.overlay 0 (s ++ [0])) := by
  rw [strcpy, returns_write (Nat.zero_le n), List.length_append, List.length_singleton]
  exact and_congr_left fun _ => by omega

theorem returns_strncpy {b : Buffer n} {s : CString} {k : ℕ} {Q : Buffer n → Prop} :
    Returns (b.strncpy s k) Q ↔
      k ≤ n ∧ Q (b.overlay 0 (s.take k ++ List.replicate (k - s.length) 0)) := by
  have hlen : (s.take k ++ List.replicate (k - s.length) (0 : UInt8)).length = k := by
    rw [List.length_append, List.length_take, List.length_replicate]
    omega
  rw [strncpy, returns_write (Nat.zero_le n), hlen, Nat.zero_add]

/-! ## What is read -/

theorem untilNul_append (s rest : List UInt8) : untilNul (s ++ 0 :: rest) = untilNul s := by
  induction s with
  | nil => rfl
  | cons b s ih =>
    by_cases hb : b = 0
    · simp [untilNul, hb]
    · simp only [untilNul, List.cons_append, ne_eq, hb, not_false_eq_true, decide_true,
        List.takeWhile_cons_of_pos, List.cons.injEq, true_and]
      exact ih

theorem text_eq {b : Buffer n} {s rest : List UInt8} (h : b.bytes = s ++ 0 :: rest) :
    b.text = pure (untilNul s) := by
  rw [text, if_pos (by rw [h]; simp), h, untilNul_append]

theorem mem_of_text_eq {b : Buffer n} {s : CString} (h : b.text = .ok s) : 0 ∈ b.bytes := by
  by_contra h0
  rw [text, if_neg h0] at h
  cases h

theorem Holds.text_eq {b : Buffer n} {s : CString} (h : b.Holds s) (h0 : 0 ∉ s) :
    b.text = .ok s := by
  obtain ⟨junk, hbytes⟩ := h
  rw [Buffer.text_eq hbytes, untilNul_of_notMem h0]
  rfl

theorem Holds.length_lt {b : Buffer n} {s : CString} (h : b.Holds s) : s.length < n := by
  obtain ⟨junk, hbytes⟩ := h
  have hlen := congrArg List.length hbytes
  rw [b.length_eq, List.length_append, List.length_cons] at hlen
  omega

theorem holds_zeroed (h : 0 < n) : (zeroed n).Holds [] := by
  obtain ⟨k, rfl⟩ : ∃ k, n = k + 1 := ⟨n - 1, by omega⟩
  exact ⟨List.replicate k 0, rfl⟩

theorem Holds.overlay {b : Buffer n} {front rest s : CString} (h : b.Holds (front ++ rest))
    (hfits : front.length + s.length < n) :
    (b.overlay front.length (s ++ [0])).Holds (front ++ s) := by
  obtain ⟨junk, hbytes⟩ := h
  have htake : b.bytes.take front.length = front := by
    rw [hbytes, List.append_assoc, List.take_left]
  have hend : front.length + (s ++ [0]).length ≤ n := by
    rw [List.length_append, List.length_singleton]
    omega
  refine ⟨b.bytes.drop (front.length + (s ++ [0]).length), ?_⟩
  rw [bytes_overlay hend, htake]
  simp

theorem returns_strncat {b : Buffer n} {front s : CString} {k : ℕ} {Q : Buffer n → Prop}
    (h : b.Holds front) (h0 : 0 ∉ front) : Returns (b.strncat s k) Q ↔
      front.length + (s.take k).length < n ∧ Q (b.overlay front.length (s.take k ++ [0])) := by
  have hlt := h.length_lt
  rw [strncat, h.text_eq h0, returns_bind, returns_ok, returns_write (by omega), List.length_append,
    List.length_singleton]
  exact and_congr_left fun _ => by omega

theorem Holds.strncat {b : Buffer n} {front s : CString} {k : ℕ} (h : b.Holds front)
    (h0 : 0 ∉ front) (hfits : front.length + (s.take k).length < n) :
    ∃ b', b.strncat s k = .ok b' ∧ b'.Holds (front ++ s.take k) := by
  refine ⟨_, eq_ok_iff.mpr ((returns_strncat h h0).mpr ⟨hfits, rfl⟩), ?_⟩
  rw [← List.append_nil front] at h
  exact h.overlay hfits

theorem text_strcpy {b : Buffer n} {s : CString} (h : s.length < n) :
    (b.overlay 0 (s ++ [0])).text = pure (untilNul s) := by
  have hfits : 0 + (s ++ [0]).length ≤ n := by
    rw [List.length_append, List.length_singleton]
    omega
  have hbytes : (b.overlay 0 (s ++ [0])).bytes = s ++ 0 :: b.bytes.drop (s ++ [0]).length := by
    rw [bytes_overlay hfits]
    simp
  exact text_eq hbytes

theorem text_zeroed {s : List UInt8} (h : s.length < n) :
    ((zeroed n).overlay 0 s).text = pure (untilNul s) := by
  have hrest : n - s.length = n - s.length - 1 + 1 := by omega
  have hbytes : ((zeroed n).overlay 0 s).bytes =
      s ++ 0 :: List.replicate (n - s.length - 1) 0 := by
    rw [bytes_overlay (by omega), ← List.replicate_succ, ← hrest]
    simp [zeroed]
  exact text_eq hbytes

end Buffer

end ByteBuffers
