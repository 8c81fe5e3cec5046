import CloudDisk.RequestLoops

/-! # What a request has put into the buffers

A complete extraction determines every buffer it writes to, so nothing of the memory is left
in them. One that stops early has not touched the buffer of its last field. -/
namespace RequestFields

open ByteStrings JsonBodies RequestLoops

section Extraction
variable {M : Type} {fields : List (BodyField M)} {root : Json} {write : M → M} {buf : CString}

theorem after_complete {x : Extract M} {set : M → M} (h : x.after set = .complete write) :
    ∃ w, x = .complete w ∧ write = w ∘ set := by
  cases x with
  | crashed => simp [Extract.after] at h
  | stopped w => simp [Extract.after] at h
  | complete w =>
    simp only [Extract.after, Extract.complete.injEq] at h
    exact ⟨w, rfl, h.symm⟩

theorem copyFields_string {name : String} {size : ℕ} {set : CString → M → M}
    (h : copyFields (stringField name size set :: fields) root = .complete write) :
    ∃ s w, getObjectItem root (cstr name) = some (.string s) ∧
      copyFields fields root = .complete w ∧ write = w ∘ set s := by
  simp only [copyFields, stringField] at h
  split at h
  · simp at h
  next item hitem =>
    split at h
    · simp at h
    next write' hstore =>
      obtain ⟨w, hw, rfl⟩ := after_complete h
      cases item with
      | string s =>
        by_cases hs : s.length < size
        · simp only [hs, if_true, Option.some.injEq] at hstore
          exact ⟨s, w, hitem, hw, by rw [hstore]⟩
        · simp [hs] at hstore
      | null => simp at hstore
      | bool b => simp at hstore
      | number n => simp at hstore
      | array items => simp at hstore
      | object members => simp at hstore

theorem copyFields_int {name : String} {set : ℤ → M → M}
    (h : copyFields (intField name set :: fields) root = .complete write) :
    ∃ n w, copyFields fields root = .complete w ∧ write = w ∘ set n := by
  simp only [copyFields, intField] at h
  split at h
  · simp at h
  next item hitem =>
    obtain ⟨w, hw, rfl⟩ := after_complete h
    exact ⟨item.valueint, w, hw, rfl⟩

theorem copyFields_done (h : copyFields [] root = .complete write) : write = id := by
  simp only [copyFields, Extract.complete.injEq] at h
  exact h.symm

theorem getInfo_complete (h : getInfo fields buf = .complete write) :
    ∃ root, cJsonParse buf = some root ∧ copyFields fields root = .complete write := by
  unfold getInfo at h
  split at h
  · simp at h
  next root hroot => exact ⟨root, hroot, h⟩

theorem isObject_of_item {item : Json} {name : CString} (h : getObjectItem root name = some item) :
    ∃ members, root = .object members := by
  cases root with
  | object members => exact ⟨members, rfl⟩
  | null => simp [getObjectItem] at h
  | bool b => simp [getObjectItem] at h
  | number n => simp [getObjectItem] at h
  | string s => simp [getObjectItem] at h
  | array items => simp [getObjectItem] at h

/-- Whatever the field stores, storing it commutes with the change `c` of the memory. -/
def Commutes (c : M → M) (field : BodyField M) : Prop :=
  ∀ item set, field.store item = some set → ∀ m, set (c m) = c (set m)

theorem stringField_commutes {c : M → M} {name : String} {size : ℕ} {set : CString → M → M}
    (h : ∀ s m, set s (c m) = c (set s m)) : Commutes c (stringField name size set) := by
  intro item set' hs
  cases item with
  | string s =>
    simp only [stringField] at hs
    split at hs
    · obtain rfl := Option.some.inj hs
      exact h s
    · simp at hs
  | null => simp [stringField] at hs
  | bool b => simp [stringField] at hs
  | number n => simp [stringField] at hs
  | array items => simp [stringField] at hs
  | object members => simp [stringField] at hs

theorem intField_commutes {c : M → M} {name : String} {set : ℤ → M → M}
    (h : ∀ n m, set n (c m) = c (set n m)) : Commutes c (intField name set) := by
  intro item set' hs
  obtain rfl := Option.some.inj hs
  exact h item.valueint

theorem after_written {x : Extract M} {set : M → M} (h : (x.after set).written = some write) :
    ∃ w, x.written = some w ∧ write = w ∘ set := by
  cases x with
  | crashed => simp [Extract.after, Extract.written] at h
  | stopped w => exact ⟨w, rfl, (Option.some.inj h).symm⟩
  | complete w => exact ⟨w, rfl, (Option.some.inj h).symm⟩

theorem copyFields_commutes {c : M → M} (hc : ∀ field ∈ fields, Commutes c field)
    (h : (copyFields fields root).written = some write) (m : M) : write (c m) = c (write m) := by
  induction fields generalizing write m with
  | nil =>
    obtain rfl := Option.some.inj h
    rfl
  | cons field fields ih =>
    simp only [copyFields] at h
    split at h
    · obtain rfl := Option.some.inj h
      rfl
    · split at h
      · simp [Extract.written] at h
      next set hset =>
        obtain ⟨w, hw, rfl⟩ := after_written h
        have hset' := hc field List.mem_cons_self _ _ hset m
        have hw' := ih (fun f hf => hc f (List.mem_cons_of_mem _ hf)) hw
        simp only [Function.comp_apply, hset', hw']

theorem getInfo_commutes {c : M → M} (hc : ∀ field ∈ fields, Commutes c field)
    (h : (getInfo fields buf).written = some write) (m : M) : write (c m) = c (write m) := by
  unfold getInfo at h
  split at h
  · obtain rfl := Option.some.inj h
    rfl
  · exact copyFields_commutes hc h m

theorem copyFields_stopped {last : BodyField M}
    (h : copyFields (fields ++ [last]) root = .stopped write) :
    (copyFields fields root).written = some write := by
  induction fields generalizing write with
  | nil =>
    simp only [List.nil_append, copyFields] at h
    split at h
    · simp only [Extract.stopped.injEq] at h
      rw [← h]
      rfl
    · split at h <;> simp [Extract.after] at h
  | cons field fields ih =>
    simp only [List.cons_append, copyFields] at h ⊢
    split at h
    · simp only [Extract.stopped.injEq] at h
      rw [← h]
      rfl
    · split at h
      · simp at h
      next set hset =>
        cases hx : copyFields (fields ++ [last]) root with
        | crashed => simp [hx, Extract.after] at h
        | complete w => simp [hx, Extract.after] at h
        | stopped w =>
          simp only [hx, Extract.after, Extract.stopped.injEq] at h
          have hw := ih hx
          rw [← h]
          cases hy : copyFields fields root with
          | crashed => simp [hy, Extract.written] at hw
          | stopped w' =>
            obtain rfl := Option.some.inj (hy ▸ hw)
            rfl
          | complete w' =>
            obtain rfl := Option.some.inj (hy ▸ hw)
            rfl

theorem stopped_commutes {c : M → M} {last : BodyField M} (hc : ∀ field ∈ fields, Commutes c field)
    (h : getInfo (fields ++ [last]) buf = .stopped write) (m : M) : write (c m) = c (write m) := by
  unfold getInfo at h
  split at h
  · simp only [Extract.stopped.injEq] at h
    rw [← h]
    rfl
  · exact copyFields_commutes hc (copyFields_stopped h) m

end Extraction

/-- The body is an object with these strings under `user` and `token`. -/
def Names (buf user token : CString) : Prop :=
  ∃ members, cJsonParse buf = some (.object members) ∧
    getObjectItem (.object members) (cstr "user") = some (.string user) ∧
    getObjectItem (.object members) (cstr "token") = some (.string token)


theorem fourFields_complete {filenameKey : String} {a b c e : ℕ} {buf : CString}
    {write : Filesop → Filesop}
    (h : getInfo [stringField "user" a fun s m => { m with user := s },
      stringField "md5" b fun s m => { m with md5 := s },
      stringField filenameKey c fun s m => { m with filename := s },
      stringField "token" e fun s m => { m with token := s }] buf = .complete write) :
    ∃ user token md5 filename, Names buf user token ∧
      ∀ m, write m = ⟨user, token, md5, filename⟩ := by
  obtain ⟨root, hroot, h1⟩ := getInfo_complete h
  obtain ⟨user, w1, huser, h2, rfl⟩ := copyFields_string h1
  obtain ⟨md5, w2, -, h3, rfl⟩ := copyFields_string h2
  obtain ⟨filename, w3, -, h4, rfl⟩ := copyFields_string h3
  obtain ⟨token, w4, htoken, h5, rfl⟩ := copyFields_string h4
  obtain rfl := copyFields_done h5
  obtain ⟨members, rfl⟩ := isObject_of_item huser
  exact ⟨user, token, md5, filename, ⟨members, hroot, huser, htoken⟩, fun m => rfl⟩

section Complete
variable {buf : CString}

theorem filesop_complete {write : Filesop → Filesop}
    (h : getInfo filesopFields buf = .complete write) :
    ∃ user token md5 filename, Names buf user token ∧
      ∀ m, write m = ⟨user, token, md5, filename⟩ := fourFields_complete h

theorem md5_complete {write : Filesop → Filesop} (h : getInfo md5Fields buf = .complete write) :
    ∃ user token md5 filename, Names buf user token ∧
      ∀ m, write m = ⟨user, token, md5, filename⟩ := fourFields_complete h

theorem files_complete {write : Files → Files} (h : getInfo filesFields buf = .complete write) :
    ∃ user token, Names buf user token ∧ ∀ m, write m = ⟨user, token⟩ := by
  obtain ⟨root, hroot, h1⟩ := getInfo_complete h
  obtain ⟨user, w1, huser, h2, rfl⟩ := copyFields_string h1
  obtain ⟨token, w2, htoken, h3, rfl⟩ := copyFields_string h2
  obtain rfl := copyFields_done h3
  obtain ⟨members, rfl⟩ := isObject_of_item huser
  exact ⟨user, token, ⟨members, hroot, huser, htoken⟩, fun m => rfl⟩

theorem sharefilesop_complete {write : Sharefilesop → Sharefilesop}
    (h : getInfo sharefilesopFields buf = .complete write) :
    ∃ user md5 filename, ∀ m, write m = { m with user, md5, filename } := by
  obtain ⟨root, -, h1⟩ := getInfo_complete h
  obtain ⟨user, w1, -, h2, rfl⟩ := copyFields_string h1
  obtain ⟨md5, w2, -, h3, rfl⟩ := copyFields_string h2
  obtain ⟨filename, w3, -, h4, rfl⟩ := copyFields_string h3
  obtain rfl := copyFields_done h4
  exact ⟨user, md5, filename, fun m => rfl⟩

theorem sharefiles_complete {write : Sharefiles → Sharefiles}
    (h : getInfo sharefilesFields buf = .complete write) :
    ∃ start count, ∀ m, write m = { m with start, count } := by
  obtain ⟨root, -, h1⟩ := getInfo_complete h
  obtain ⟨start, w1, h2, rfl⟩ := copyFields_int h1
  obtain ⟨count, w2, h3, rfl⟩ := copyFields_int h2
  obtain rfl := copyFields_done h3
  exact ⟨start, count, fun m => rfl⟩

end Complete

end RequestFields
