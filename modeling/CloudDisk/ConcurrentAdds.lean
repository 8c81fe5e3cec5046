import CloudDisk.CommandConflicts
import CloudDisk.DiskRefinement

/-! # Files that are added at the same time

Uploads, `deal_md5` and `save_file` read a counter and write it back in two statements. Between
calls for different users and different contents this does no harm: no statement of one touches a
row of another, so every interleaving is one of the serial orders, and these are those of the
abstract disk. -/
namespace ConcurrentAdds

open ByteStrings CommandPrograms RowTables Interleavings DiskState HandlerRules DiskCalls
  CommandConflicts DiskRefinement DiskTexts
open AbstractDisk (File)

def Adds : Call → Prop
  | .upload _ _ _ _ _ _ _ | .dealMd5 _ _ _ _ | .saveFile _ _ _ _ => True
  | .shareFile _ _ _ _ | .cancelShareFile _ _ _ | .delFile _ _ _ => False

def file : Call → File
  | .upload _ user md5 filename _ _ _ | .dealMd5 _ user md5 filename | .saveFile _ user md5 filename
  | .shareFile _ user md5 filename | .cancelShareFile user md5 filename
  | .delFile user md5 filename => ⟨user, md5, filename⟩

def object : Call → Option CString
  | .upload _ _ _ _ _ fileid _ => some fileid
  | _ => none

/-! ## Statements -/

/-- Only rows of one user and one content are read or written. -/
def Own (e : File) : Cmd → Prop
  | .query (.fileInfo op) => ∀ r, op.Touches r → r.md5 = e.md5
  | .query (.userFileList op) => ∀ r, op.Touches r → r.user = e.user
  | .query (.userFileCount op) => ∀ r, op.Touches r → r.user = e.user
  | .query .setNames | .mysqlConnect | .redisConnect => True
  | _ => False

theorem not_conflict {e e' : File} {c c' : Cmd} (huser : e.user ≠ e'.user) (hmd5 : e.md5 ≠ e'.md5)
    (h : Own e c) (h' : Own e' c') : ¬ Conflict c c' := by
  cases c with
  | mysqlConnect => exact id
  | redisConnect => exact id
  | redis c => exact h.elim
  | fdfsDelete fileid => exact h.elim
  | query q =>
    cases c' with
    | mysqlConnect => exact id
    | redisConnect => exact id
    | redis c => exact h'.elim
    | fdfsDelete fileid => exact h'.elim
    | query q' =>
      cases q <;> cases q' <;> first
        | exact h.elim
        | exact h'.elim
        | simp [Conflict, SqlConflict, joins]
      · rintro ⟨-, r, hr, hr'⟩
        exact hmd5 ((h r hr).symm.trans (h' r hr'))
      · rintro ⟨-, r, hr, hr'⟩
        exact huser ((h r hr).symm.trans (h' r hr'))
      · rintro ⟨-, r, hr, hr'⟩
        exact huser ((h r hr).symm.trans (h' r hr'))

theorem own_counting (e : File) : Counting (Own e) e.user where
  select _ hr := of_decide_eq_true hr
  insert r hr := by rw [show r = _ from hr]
  update n r hr := by
    rcases hr with hr | ⟨s, hs, rfl⟩
    · exact of_decide_eq_true hr
    · exact of_decide_eq_true hs
  delete _ hr := of_decide_eq_true hr

theorem own_updateFileCount (e : File) (n : ℤ) : Own e (.query (updateFileCount e.md5 n)) := by
  rintro r (hr | ⟨s, hs, rfl⟩)
  · exact hasMd5_key _ hr
  · exact hasMd5_key s hs

theorem own_insertUserFile (e : File) (now : CString) :
    Own e (.query (insertUserFile e.user e.md5 e.filename now)) := by
  intro r hr
  rw [show r = _ from hr]

theorem adds_own {c : Call} (h : Adds c) : c.handler.All (Own (file c)) := by
  have hw : Wiring (Own (file c)) := ⟨trivial, trivial, trivial⟩
  cases c with
  | upload now user md5 filename size fileid url =>
    exact (stays_storeFileinfoToMysql hw (own_counting _) (fun r hr => by rw [show r = _ from hr])
      (own_insertUserFile _ now)).all
  | dealMd5 now user md5 filename =>
    exact (stays_dealMd5 hw (own_counting _) hasMd5_key
      (fun r hr => congrArg Prod.fst (isRow_key r hr))
      (own_updateFileCount _) (own_insertUserFile _ now)).all
  | saveFile now user md5 filename =>
    exact (stays_saveFile hw (own_counting _) hasMd5_key
      (fun r hr => congrArg Prod.fst (isRow_key r hr))
      (own_updateFileCount _) (own_insertUserFile _ now)).all
  | shareFile now user md5 filename => exact h.elim
  | cancelShareFile user md5 filename => exact h.elim
  | delFile user md5 filename => exact h.elim

/-! ## One call -/

section Step
variable {base : Finset CString} {d : Disk} {a a' : AbstractDisk.Disk} {c : Call}

/-- Nobody is called like the share counter, sums have 32 digits and uploads bring new contents. -/
structure Addable (a : AbstractDisk.Disk) (c : Call) : Prop where
  adds : Adds c
  user : (file c).user ≠ shareCountKey
  length : (file c).md5.length = 32
  fresh : (object c).isSome → ¬ a.Known (file c).md5

theorem withoutObject (h : Represents base d a) {fileid : CString}
    (hbase : fileid ∈ base) :
    Represents (base.erase fileid) { d with storage := d.storage.erase fileid } a where
  files := h.files
  shares := h.shares
  exact := by
    have hstored : ∀ r ∈ d.fileInfo, r.fileId ∈ d.storage.erase fileid := by
      intro r hr
      refine Finset.mem_erase.mpr ⟨?_, h.exact.stored r hr⟩
      rintro rfl
      exact h.stores.apart r hr hbase
    exact ⟨h.exact.files, hstored, h.exact.separate, h.exact.users, h.exact.triples⟩
  ledger := ⟨h.ledger.once, h.ledger.listed, h.ledger.status, h.ledger.counter, h.ledger.users⟩
  caches := h.caches
  stores :=
    { objects := by
        intro id
        simp only [Finset.mem_erase, h.stores.objects]
        constructor
        · rintro ⟨hne, hb | hr⟩
          · exact .inl ⟨hne, hb⟩
          · exact .inr hr
        · rintro (⟨hne, hb⟩ | ⟨r, hr, rfl⟩)
          · exact ⟨hne, .inl hb⟩
          · exact ⟨fun heq => h.stores.apart r hr (heq ▸ hbase), .inr ⟨r, hr, rfl⟩⟩
      apart := fun r hr hb => h.stores.apart r hr (Finset.mem_of_mem_erase hb) }
  users := h.users
  sums := h.sums

/-- The object is in the storage when the handler starts, without a row that names it. -/
theorem add_refines (h : Represents base d a) (hc : Addable a c)
    (hobject : ∀ fileid ∈ object c, fileid ∈ base) :
    Spec Cmd.exec NoFail c.handler d fun n d' =>
      n = (step c a).1 ∧ Represents (base.filter fun id => id ∉ object c) d' (step c a).2 := by
  have hall : object c = none → (base.filter fun id => id ∉ object c) = base := by
    intro hnone
    simp [hnone]
  cases c with
  | upload now user md5 filename size fileid url =>
    have hbase : fileid ∈ base := hobject fileid rfl
    have hmem : fileid ∈ d.storage := (h.stores.objects fileid).mpr (.inl hbase)
    have hallowed : Allowed { d with storage := d.storage.erase fileid } a
        (.upload now user md5 filename size fileid url) :=
      ⟨hc.user, hc.length, hc.fresh rfl, Finset.notMem_erase fileid d.storage⟩
    have hspec := step_refines _ _ _ a (withoutObject h hbase) hallowed
    simp only [Call.arrive, Finset.insert_erase hmem] at hspec
    have hleft : (base.filter fun id => id ∉ some fileid) = base.erase fileid := by
      ext id
      simp [and_comm, eq_comm]
    rw [object, hleft]
    exact hspec
  | dealMd5 now user md5 filename =>
    rw [hall rfl]
    exact step_refines base (.dealMd5 now user md5 filename) d a h ⟨hc.user, hc.length⟩
  | saveFile now user md5 filename =>
    rw [hall rfl]
    exact step_refines base (.saveFile now user md5 filename) d a h ⟨hc.user, hc.length⟩
  | shareFile now user md5 filename => exact hc.adds.elim
  | cancelShareFile user md5 filename => exact hc.adds.elim
  | delFile user md5 filename => exact hc.adds.elim

theorem step_answer (hc : Adds c) (hknown : a'.Known (file c).md5 ↔ a.Known (file c).md5)
    (hmem : file c ∈ a'.files ↔ file c ∈ a.files) : (step c a').1 = (step c a).1 := by
  cases c with
  | upload now user md5 filename size fileid url => rfl
  | dealMd5 now user md5 filename =>
    simp only [file] at hknown hmem
    simp only [step, hknown, hmem]
    split <;> [rfl; split <;> rfl]
  | saveFile now user md5 filename =>
    simp only [file] at hknown hmem
    simp only [step, hknown, hmem]
    split <;> [rfl; split <;> rfl]
  | shareFile now user md5 filename => exact hc.elim
  | cancelShareFile user md5 filename => exact hc.elim
  | delFile user md5 filename => exact hc.elim

theorem step_state (hc : Adds c) : (step c a).2.shares = a.shares ∧
    ∀ x, x ∈ (step c a).2.files ↔ x ∈ a.files ∨ (step c a).1 = 0 ∧ x = file c := by
  cases c with
  | upload now user md5 filename size fileid url =>
    exact ⟨rfl, by simp [step, AbstractDisk.Disk.add, file, or_comm]⟩
  | dealMd5 now user md5 filename =>
    simp only [step]
    split
    · simp
    · split
      · simp
      · exact ⟨rfl, by simp [AbstractDisk.Disk.add, file, or_comm]⟩
  | saveFile now user md5 filename =>
    simp only [step]
    split
    · simp
    · split
      · simp
      · exact ⟨rfl, by simp [AbstractDisk.Disk.add, file, or_comm]⟩
  | shareFile now user md5 filename => exact hc.elim
  | cancelShareFile user md5 filename => exact hc.elim
  | delFile user md5 filename => exact hc.elim

end Step

/-! ## All calls -/

section Runs
variable {ι : Type} [Fintype ι] [DecidableEq ι] {calls : ι → Call} {base : Finset CString}
  {d : Disk}
  {a : AbstractDisk.Disk}

/-- No two calls are for the same user, bring the same content or come with the same object. -/
structure Apart (calls : ι → Call) : Prop where
  users : ∀ i j, i ≠ j → (file (calls i)).user ≠ (file (calls j)).user
  contents : ∀ i j, i ≠ j → (file (calls i)).md5 ≠ (file (calls j)).md5
  objects : ∀ i j, i ≠ j → ∀ fileid ∈ object (calls i), fileid ∉ object (calls j)

def start (calls : ι → Call) (e : ι → ℕ → Outcome) (d : Disk) :
    System ι Cmd Reply Outcome Disk ℤ :=
  ⟨fun i => ⟨(calls i).handler, e i⟩, d⟩

/-- The objects that no finished call has claimed. -/
def unclaimed (base : Finset CString) (calls : ι → Call) (results : ι → Option ℤ) :
    Finset CString :=
  base.filter fun id => ∀ i, (results i).isSome → id ∉ object (calls i)

/-- Between two calls: the finished ones have given the answers of the abstract disk, and their
files are there. -/
structure Progress (base : Finset CString) (a : AbstractDisk.Disk) (calls : ι → Call)
    (results : ι → Option ℤ) (w : Disk) : Prop where
  answers : ∀ i n, results i = some n → n = (step (calls i) a).1
  state : ∃ a', Represents (unclaimed base calls results) w a' ∧ a'.shares = a.shares ∧
    ∀ x, x ∈ a'.files ↔ x ∈ a.files ∨ ∃ i, results i = some 0 ∧ x = file (calls i)

theorem unclaimed_update {results : ι → Option ℤ} {i : ι} {n : ℤ} :
    unclaimed base calls (Function.update results i (some n)) =
      (unclaimed base calls results).filter fun id => id ∉ object (calls i) := by
  ext id
  simp only [unclaimed, Finset.mem_filter, and_assoc]
  refine and_congr_right fun _ => ⟨fun h => ⟨fun j hj => h j ?_, h i ?_⟩, fun h j hj => ?_⟩
  · by_cases hji : j = i
    · rw [hji, Function.update_self]
      rfl
    · rwa [Function.update_of_ne hji]
  · rw [Function.update_self]
    rfl
  · by_cases hji : j = i
    · rw [hji]
      exact h.2
    · rw [Function.update_of_ne hji] at hj
      exact h.1 j hj

section Finished
variable {a' : AbstractDisk.Disk} {i : ι} {results : ι → Option ℤ}

-- the files of the other calls have other contents

omit [Fintype ι] [DecidableEq ι] in
theorem known_iff_of_apart (hapart : Apart calls) (hother : ∀ {j}, results j = some 0 → j ≠ i)
    (hfiles : ∀ x, x ∈ a'.files ↔ x ∈ a.files ∨ ∃ j, results j = some 0 ∧ x = file (calls j)) :
    a'.Known (file (calls i)).md5 ↔ a.Known (file (calls i)).md5 := by
  constructor
  · rintro ⟨x, hx, hm⟩
    rcases (hfiles x).mp hx with hx | ⟨j, hj, rfl⟩
    · exact ⟨x, hx, hm⟩
    · exact absurd hm (hapart.contents j i (hother hj))
  · rintro ⟨x, hx, hm⟩
    exact ⟨x, (hfiles x).mpr (.inl hx), hm⟩

omit [Fintype ι] [DecidableEq ι] in
theorem mem_iff_of_apart (hapart : Apart calls) (hother : ∀ {j}, results j = some 0 → j ≠ i)
    (hfiles : ∀ x, x ∈ a'.files ↔ x ∈ a.files ∨ ∃ j, results j = some 0 ∧ x = file (calls j)) :
    file (calls i) ∈ a'.files ↔ file (calls i) ∈ a.files := by
  rw [hfiles]
  apply or_iff_left
  rintro ⟨j, hj, heq⟩
  exact hapart.contents j i (hother hj) (congrArg File.md5 heq.symm)

end Finished

theorem progress_call (hapart : Apart calls) (hadd : ∀ i, Addable a (calls i))
    (hobject : ∀ i, ∀ fileid ∈ object (calls i), fileid ∈ base) {i : ι} {results : ι → Option ℤ}
    {w : Disk} {e : ℕ → Outcome} (he : ∀ n, NoFail (e n)) (hi : results i = none)
    (h : Progress base a calls results w) :
    Progress base a calls
      (Function.update results i (some ((calls i).handler.run Cmd.exec e w).1))
      ((calls i).handler.run Cmd.exec e w).2 := by
  obtain ⟨a', hrep, hshares, hfiles⟩ := h.state
  have hother : ∀ {j}, results j = some 0 → j ≠ i := by
    rintro j hj rfl
    simp [hi] at hj
  have hknown := known_iff_of_apart hapart hother hfiles
  have hmem := mem_iff_of_apart hapart hother hfiles
  have hanswer := step_answer (hadd i).adds hknown hmem
  have haddable : Addable a' (calls i) :=
    ⟨(hadd i).adds, (hadd i).user, (hadd i).length, fun hs hk => (hadd i).fresh hs (hknown.mp hk)⟩
  have hbase : ∀ fileid ∈ object (calls i), fileid ∈ unclaimed base calls results := by
    intro fileid hid
    refine Finset.mem_filter.mpr ⟨hobject i fileid hid, fun j hj => ?_⟩
    have hne : i ≠ j := by
      rintro rfl
      simp [hi] at hj
    exact hapart.objects i j hne fileid hid
  obtain ⟨hn, hrep'⟩ := add_refines hrep haddable hbase e he
  rw [hanswer] at hn
  obtain ⟨hstate, hadded⟩ := step_state (a := a') (hadd i).adds
  refine ⟨fun j n hj => ?_, (step (calls i) a').2, ?_, hstate.trans hshares, fun x => ?_⟩
  · by_cases hji : j = i
    · subst hji
      rw [Function.update_self, Option.some.injEq] at hj
      rw [← hj, hn]
    · rw [Function.update_of_ne hji] at hj
      exact h.answers j n hj
  · rw [unclaimed_update]
    exact hrep'
  · rw [hadded, hfiles, hanswer, ← hn, or_assoc]
    refine or_congr_right ⟨?_, ?_⟩
    · rintro (⟨j, hj, rfl⟩ | ⟨hzero, rfl⟩)
      · exact ⟨j, by rwa [Function.update_of_ne (hother hj)], rfl⟩
      · exact ⟨i, by rw [Function.update_self, hzero], rfl⟩
    · rintro ⟨j, hj, rfl⟩
      by_cases hji : j = i
      · subst hji
        rw [Function.update_self, Option.some.injEq] at hj
        exact .inr ⟨hj, rfl⟩
      · rw [Function.update_of_ne hji] at hj
        exact .inl ⟨j, hj, rfl⟩

omit [Fintype ι] in
theorem adds_inOrder (hapart : Apart calls) (hadds : ∀ i, Adds (calls i)) (e : ι → ℕ → Outcome)
    (order schedule : List ι) :
    InOrder Cmd.exec order ((start calls e d).trace Cmd.exec schedule) := by
  have hown : ∀ x ∈ (start calls e d).trace Cmd.exec schedule,
      Own (file (calls x.thread)) x.command :=
    trace_all (P := fun i => Own (file (calls i))) schedule _ fun i => adds_own (hadds i)
  refine List.pairwise_iff_forall_sublist.mpr fun {x y} hsub hlt => ?_
  have hx := hown x (hsub.subset (by simp))
  have hy := hown y (hsub.subset (by simp))
  have hne : x.thread ≠ y.thread := fun heq => by simp [heq] at hlt
  exact independent_of_not_conflict
    (not_conflict (hapart.users _ _ hne) (hapart.contents _ _ hne) hx hy)

theorem adds_serial (h : Represents base d a) (hapart : Apart calls)
    (hadd : ∀ i, Addable a (calls i)) (hobject : ∀ i, ∀ fileid ∈ object (calls i), fileid ∈ base)
    {e : ι → ℕ → Outcome} (he : ∀ i n, NoFail (e i n)) (schedule : List ι)
    (hdone : ∀ i, ((((start calls e d).run Cmd.exec schedule).pool i).result).isSome) :
    (∀ i, (((start calls e d).run Cmd.exec schedule).pool i).result =
        some (step (calls i) a).1) ∧
      ∃ a', Represents (base.filter fun id => ∀ i, id ∉ object (calls i))
          ((start calls e d).run Cmd.exec schedule).world a' ∧ a'.shares = a.shares ∧
        ∀ x, x ∈ a'.files ↔ x ∈ a.files ∨ ∃ i, (step (calls i) a).1 = 0 ∧ x = file (calls i) := by
  let order : List ι := (Finset.univ : Finset ι).toList
  have hserial := serializable (Finset.nodup_toList Finset.univ) (fun i => by simp) hdone
    (adds_inOrder hapart (fun i => (hadd i).adds) e order schedule)
  have hstart : Progress base a calls (fun _ => none) d := by
    refine ⟨fun i n hn => by simp at hn, a, ?_, rfl, by simp⟩
    simpa [unclaimed] using h
  have hstep : ∀ i results w, results i = none → Progress base a calls results w →
      Progress base a calls
        (Function.update results i (some ((calls i).handler.run Cmd.exec (e i) w).1))
        ((calls i).handler.run Cmd.exec (e i) w).2 :=
    fun i results w hi hI => progress_call hapart hadd hobject (he i) hi hI
  have hend : Progress base a calls
      (serial Cmd.exec (start calls e d).pool order (fun _ => none, (start calls e d).world)).1
      (serial Cmd.exec (start calls e d).pool order (fun _ => none, (start calls e d).world)).2 :=
    serial_invariant (I := fun s => Progress base a calls s.1 s.2) hstep order
      (Finset.nodup_toList _) _ (fun _ _ => rfl) hstart
  rw [hserial] at hend
  have hanswers : ∀ i, (((start calls e d).run Cmd.exec schedule).pool i).result =
      some (step (calls i) a).1 := by
    intro i
    obtain ⟨n, hn⟩ := Option.isSome_iff_exists.mp (hdone i)
    rw [hn, hend.answers i n hn]
  refine ⟨hanswers, ?_⟩
  obtain ⟨a', hrep, hshares, hfiles⟩ := hend.state
  refine ⟨a', ?_, hshares, fun x => ?_⟩
  · have hall : unclaimed base calls (fun i =>
        (((start calls e d).run Cmd.exec schedule).pool i).result) =
        base.filter fun id => ∀ i, id ∉ object (calls i) :=
      Finset.filter_congr fun id _ => forall_congr' fun i => by simp [hanswers i]
    rw [hall] at hrep
    exact hrep
  · simpa [hanswers] using hfiles x

/-- Files of different users and contents may be added at the same time: whatever the interleaving,
each call gets the answer that it would get alone, and in the end the servers hold the files that
were there and those that have been added. -/
theorem adds_concurrent {server : Server} (hs : Faithful server) (h : Represents base d a)
    (hapart : Apart calls) (hadd : ∀ i, Addable a (calls i)) (htame : ∀ i, TameCall (calls i))
    (hobject : ∀ i, ∀ fileid ∈ object (calls i), fileid ∈ base) {e : ι → ℕ → Outcome}
    (he : ∀ i n, NoFail (e i n)) (schedule : List ι)
    (hdone : ∀ i, ((((start calls e d).run server schedule).pool i).result).isSome) :
    (∀ i, (((start calls e d).run server schedule).pool i).result =
        some (step (calls i) a).1) ∧
      ∃ a', Represents (base.filter fun id => ∀ i, id ∉ object (calls i))
          ((start calls e d).run server schedule).world a' ∧ a'.shares = a.shares ∧
        ∀ x, x ∈ a'.files ↔ x ∈ a.files ∨ ∃ i, (step (calls i) a).1 = 0 ∧ x = file (calls i) := by
  have hrun : (start calls e d).run server schedule = (start calls e d).run Cmd.exec schedule :=
    run_congr hs schedule _ fun i => all_handler (htame i)
  rw [hrun] at hdone ⊢
  exact adds_serial h hapart hadd hobject he schedule hdone

end Runs

/-! ## An example -/

/-- User `a` uploads a file while `b` asks for another one. -/
def uploadAndAsk : Bool → Call
  | false => .upload [] [97] (List.replicate 32 48) [102] 1 [7] []
  | true => .dealMd5 [] [98] (List.replicate 32 49) [103]

def arrived : Disk := { ReferenceCounts.emptyDisk with storage := {[7]} }

theorem uploadAndAsk_addable (i : Bool) : Addable AbstractDisk.Disk.empty (uploadAndAsk i) := by
  cases i
  · exact ⟨trivial, by decide, by decide, fun _ => by decide⟩
  · exact ⟨trivial, by decide, by decide, fun h => by simp [object, uploadAndAsk] at h⟩

theorem adds_concurrent_bool :
    (((start uploadAndAsk (fun _ _ => .ok 0) arrived).run Cmd.exec
      [false, true, false, true, false, false, true, false, false]).pool true).result =
        some (-3) := by
  have hempty : Represents {[7]} arrived AbstractDisk.Disk.empty :=
    represents_empty (d := arrived) ⟨rfl, rfl, rfl, rfl⟩ rfl rfl
  have hapart : Apart uploadAndAsk := ⟨by decide, by decide, by decide⟩
  have hobject : ∀ i, ∀ fileid ∈ object (uploadAndAsk i), fileid ∈ ({[7]} : Finset CString) := by
    intro i fileid hid
    cases i
    · simpa [object, uploadAndAsk, eq_comm] using hid
    · simp [object, uploadAndAsk] at hid
  refine (adds_concurrent faithful_exec hempty hapart uploadAndAsk_addable
    (by decide +kernel) hobject
    (fun _ _ => Outcome.noConfusion) _ ?_).1 true
  decide +kernel

end ConcurrentAdds
