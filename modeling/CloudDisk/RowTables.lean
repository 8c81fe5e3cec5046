import Mathlib.Data.Multiset.Filter
import Mathlib.Data.Multiset.Count
import Mathlib.Data.Multiset.AddSub
import Mathlib.Data.Multiset.Bind
import Mathlib.Data.List.Sort
import Mathlib.Data.List.Rotate
import Mathlib.Data.List.Lex

/-! # Tables as finite multisets of rows

No key constraint is assumed. A statement selects rows by a Boolean condition, and a
result set has no promised order: any matching row can be the first one fetched. -/
namespace RowTables

variable {α β : Type}

def rowsWhere (p : α → Bool) (t : Multiset α) : Multiset α := t.filter fun r => p r

def updateWhere (p : α → Bool) (f : α → α) (t : Multiset α) : Multiset α :=
  t.map fun r => if p r then f r else r

def deleteWhere (p : α → Bool) (t : Multiset α) : Multiset α := t.filter fun r => ¬ p r

def countWhere (p : α → Bool) (t : Multiset α) : ℕ := Multiset.card (rowsWhere p t)

/-- The result set as fetched: one fixed order, started at a row the server chooses. -/
def listing [LinearOrder β] (k : ℕ) (s : Multiset β) : List β :=
  (Quot.liftOn s (List.insertionSort (· ≤ ·)) fun _ _ h =>
    (List.perm_insertionSort _ _).trans (h.trans (List.perm_insertionSort _ _).symm)
      |>.eq_of_pairwise (fun _ _ _ _ => le_antisymm)
        (List.pairwise_insertionSort _ _) (List.pairwise_insertionSort _ _)).rotate k

theorem mem_listing [LinearOrder β] {k : ℕ} {s : Multiset β} {x : β} :
    x ∈ listing k s ↔ x ∈ s := by
  induction s using Quot.inductionOn with
  | h l =>
    change x ∈ (List.insertionSort (· ≤ ·) l).rotate k ↔ x ∈ l
    rw [List.mem_rotate, List.mem_insertionSort]

theorem listing_eq_nil [LinearOrder β] {k : ℕ} {s : Multiset β} :
    listing k s = [] ↔ s = 0 := by
  constructor
  · intro h
    apply Multiset.eq_zero_of_forall_notMem
    intro x hx
    have hm : x ∈ listing k s := mem_listing.mpr hx
    simp [h] at hm
  · rintro rfl
    apply List.eq_nil_iff_forall_not_mem.mpr
    intro x hx
    simpa using mem_listing.mp hx

theorem length_listing [LinearOrder β] (k : ℕ) (s : Multiset β) :
    (listing k s).length = Multiset.card s := by
  induction s using Quot.inductionOn with
  | h l =>
    change ((List.insertionSort (· ≤ ·) l).rotate k).length = l.length
    rw [List.length_rotate, List.length_insertionSort]

theorem coe_listing [LinearOrder β] (k : ℕ) (s : Multiset β) : (listing k s : Multiset β) = s := by
  induction s using Quot.inductionOn with
  | h l =>
    apply Multiset.coe_eq_coe.mpr
    exact (List.rotate_perm _ k).trans (List.perm_insertionSort _ l)

theorem listing_singleton [LinearOrder β] (k : ℕ) (x : β) : listing k {x} = [x] :=
  List.rotate_singleton x k

theorem exists_listing_cons [LinearOrder β] {s : Multiset β} {x : β} (h : x ∈ s) :
    ∃ k rest, listing k s = x :: rest := by
  induction s using Quot.inductionOn with
  | h l =>
    have hmem : x ∈ List.insertionSort (· ≤ ·) l := (List.mem_insertionSort _).mpr h
    obtain ⟨a, b, hab⟩ := List.append_of_mem hmem
    refine ⟨a.length, b ++ a, ?_⟩
    change (List.insertionSort (· ≤ ·) l).rotate a.length = _
    rw [hab, List.rotate_append_length_eq]
    rfl

/-- The single-table statements: what they answer and what they change. -/
inductive TableOp (α β : Type) where
  | select (p : α → Bool) (columns : α → β)
  | insert (r : α)
  | update (p : α → Bool) (f : α → α)
  | delete (p : α → Bool)

def TableOp.answer : TableOp α β → Multiset α → Multiset β
  | .select p columns, t => (rowsWhere p t).map columns
  | _, _ => 0

def TableOp.effect : TableOp α β → Multiset α → Multiset α
  | .select _ _, t => t
  | .insert r, t => r ::ₘ t
  | .update p f, t => updateWhere p f t
  | .delete p, t => deleteWhere p t

section Conditions
variable {p q : α → Bool} {f : α → α} {t : Multiset α} {r : α}

@[simp] theorem mem_rowsWhere : r ∈ rowsWhere p t ↔ r ∈ t ∧ p r := by
  simp [rowsWhere]

@[simp] theorem mem_deleteWhere : r ∈ deleteWhere p t ↔ r ∈ t ∧ p r = false := by
  simp [deleteWhere]

theorem mem_updateWhere : r ∈ updateWhere p f t ↔
    (∃ s ∈ t, p s ∧ f s = r) ∨ (r ∈ t ∧ p r = false) := by
  simp only [updateWhere, Multiset.mem_map]
  constructor
  · rintro ⟨s, hs, h⟩
    cases hp : p s with
    | true => exact Or.inl ⟨s, hs, hp, by simpa [hp] using h⟩
    | false =>
      have : s = r := by simpa [hp] using h
      exact Or.inr ⟨this ▸ hs, this ▸ hp⟩
  · rintro (⟨s, hs, hp, rfl⟩ | ⟨hr, hp⟩)
    · exact ⟨s, hs, by simp [hp]⟩
    · exact ⟨r, hr, by simp [hp]⟩

theorem none_iff_not_exists : (∀ r ∈ t, p r = false) ↔ ¬ ∃ r ∈ t, p r := by
  simp

theorem rowsWhere_eq_zero : rowsWhere p t = 0 ↔ ∀ r ∈ t, p r = false := by
  simp [rowsWhere, Multiset.filter_eq_nil]

theorem rowsWhere_cons : rowsWhere p (r ::ₘ t) =
    if p r then r ::ₘ rowsWhere p t else rowsWhere p t := by
  cases hp : p r <;> simp [rowsWhere, hp]

theorem updateWhere_cons : updateWhere p f (r ::ₘ t) =
    (if p r then f r else r) ::ₘ updateWhere p f t := by
  simp [updateWhere]

theorem deleteWhere_cons : deleteWhere p (r ::ₘ t) =
    if p r then deleteWhere p t else r ::ₘ deleteWhere p t := by
  cases hp : p r <;> simp [deleteWhere, hp]

@[simp] theorem countWhere_cons : countWhere p (r ::ₘ t) =
    countWhere p t + if p r then 1 else 0 := by
  cases hp : p r <;> simp [countWhere, rowsWhere_cons, hp]

@[simp] theorem countWhere_zero : countWhere p 0 = 0 := rfl

theorem countWhere_eq_zero : countWhere p t = 0 ↔ ∀ r ∈ t, p r = false := by
  rw [countWhere, Multiset.card_eq_zero, rowsWhere_eq_zero]

theorem countWhere_pos : 0 < countWhere p t ↔ ∃ r ∈ t, p r := by
  rw [Nat.pos_iff_ne_zero, Ne, countWhere_eq_zero]
  simp

theorem countWhere_le_card (p : α → Bool) (t : Multiset α) : countWhere p t ≤ Multiset.card t :=
  Multiset.card_le_card (Multiset.filter_le _ t)

theorem rowsWhere_eq_singleton (h : countWhere p t ≤ 1) (hr : r ∈ t) (hpr : p r) :
    rowsWhere p t = {r} := by
  have hpos := countWhere_pos.mpr ⟨r, hr, hpr⟩
  obtain ⟨a, ha⟩ := Multiset.card_eq_one.mp (show countWhere p t = 1 by omega)
  have hra : r ∈ rowsWhere p t := mem_rowsWhere.mpr ⟨hr, hpr⟩
  rw [ha, Multiset.mem_singleton] at hra
  rw [ha, hra]

theorem eq_of_countWhere_le_one {s : α} (h : countWhere p t ≤ 1) (hr : r ∈ t) (hs : s ∈ t)
    (hpr : p r) (hps : p s) : r = s := by
  have hsa : s ∈ rowsWhere p t := mem_rowsWhere.mpr ⟨hs, hps⟩
  rw [rowsWhere_eq_singleton h hr hpr, Multiset.mem_singleton] at hsa
  exact hsa.symm

theorem countWhere_delete : countWhere q (deleteWhere p t) +
    countWhere (fun r => q r && p r) t = countWhere q t := by
  induction t using Multiset.induction_on with
  | empty => rfl
  | cons a t ih =>
    cases hp : p a <;> cases hq : q a <;> simp [deleteWhere_cons, hp, hq] <;> omega

theorem countWhere_delete_le : countWhere q (deleteWhere p t) ≤ countWhere q t := by
  have := countWhere_delete (q := q) (p := p) (t := t)
  omega

theorem countWhere_update (h : ∀ r, p r → q (f r) = q r) :
    countWhere q (updateWhere p f t) = countWhere q t := by
  induction t using Multiset.induction_on with
  | empty => rfl
  | cons a t ih =>
    rw [updateWhere_cons, countWhere_cons, countWhere_cons, ih]
    cases hp : p a with
    | true => simp [h a hp]
    | false => simp

theorem rowsWhere_update (h : ∀ r, p r → q (f r) = q r) :
    rowsWhere q (updateWhere p f t) = updateWhere p f (rowsWhere q t) := by
  induction t using Multiset.induction_on with
  | empty => rfl
  | cons a t ih =>
    rw [updateWhere_cons, rowsWhere_cons, rowsWhere_cons, ih]
    cases hp : p a with
    | true =>
      cases hq : q a <;> simp [hp, h a hp, hq, updateWhere]
    | false =>
      cases hq : q a <;> simp [hp, hq, updateWhere]

theorem deleteWhere_update (h : ∀ r, p r → p (f r)) :
    deleteWhere p (updateWhere p f t) = deleteWhere p t := by
  induction t using Multiset.induction_on with
  | empty => rfl
  | cons a t ih =>
    rw [updateWhere_cons, deleteWhere_cons, deleteWhere_cons, ih]
    cases hp : p a with
    | true => simp [h a hp]
    | false => simp [hp]

theorem deleteWhere_idem : deleteWhere p (deleteWhere p t) = deleteWhere p t := by
  apply Multiset.filter_eq_self.mpr
  intro r hr
  simp [(mem_deleteWhere.mp hr).2]

theorem updateWhere_of_none (h : ∀ r ∈ t, p r = false) : updateWhere p f t = t := by
  unfold updateWhere
  conv_rhs => rw [← Multiset.map_id t]
  apply Multiset.map_congr rfl
  intro r hr
  simp [h r hr]

theorem deleteWhere_of_none (h : ∀ r ∈ t, p r = false) : deleteWhere p t = t := by
  apply Multiset.filter_eq_self.mpr
  intro r hr
  simp [h r hr]

theorem updateWhere_updateWhere {g : α → α} (h : ∀ r, p r → p (f r)) :
    updateWhere p g (updateWhere p f t) = updateWhere p (fun r => g (f r)) t := by
  unfold updateWhere
  rw [Multiset.map_map]
  apply Multiset.map_congr rfl
  intro r _
  cases hr : p r with
  | true => simp [hr, h r hr]
  | false => simp [hr]

theorem updateWhere_eq_self_iff (h : ∀ r, f (f r) = f r) :
    updateWhere p f t = t ↔ ∀ r ∈ t, p r → f r = r := by
  constructor
  · intro heq r hr hp
    rw [← heq] at hr
    rcases mem_updateWhere.mp hr with ⟨s, -, -, rfl⟩ | ⟨-, hno⟩
    · exact h s
    · simp [hp] at hno
  · intro hall
    unfold updateWhere
    conv_rhs => rw [← Multiset.map_id t]
    apply Multiset.map_congr rfl
    intro r hr
    cases hp : p r with
    | true => simp [hall r hr hp]
    | false => simp

theorem updateWhere_column_iff (column : α → β) {c : β} (hset : ∀ r, column (f r) = c)
    (hkeep : ∀ r, column r = c → f r = r) :
    updateWhere p f t = t ↔ ∀ r ∈ t, p r → column r = c := by
  rw [updateWhere_eq_self_iff fun r => hkeep (f r) (hset r)]
  refine forall₃_congr fun r _ _ => ⟨fun h => ?_, hkeep r⟩
  rw [← h]
  exact hset r

theorem updateWhere_ne (hr : r ∈ t) (hp : p r) (hf : ∀ s ∈ t, p s → f s ≠ r) :
    updateWhere p f t ≠ t := by
  intro heq
  rw [← heq] at hr
  rcases mem_updateWhere.mp hr with ⟨s, hs, hps, hsr⟩ | ⟨-, hno⟩
  · exact hf s hs hps hsr
  · simp [hp] at hno

theorem countWhere_delete_of_imp (h : ∀ r, p r → q r) :
    countWhere q (deleteWhere p t) + countWhere p t = countWhere q t := by
  have hpq : (fun r => q r && p r) = p := by
    funext r
    cases hp : p r with
    | true => simp [h r hp]
    | false => simp
  simpa only [hpq] using countWhere_delete (q := q) (p := p) (t := t)

theorem card_deleteWhere : Multiset.card (deleteWhere p t) + countWhere p t = Multiset.card t := by
  have := countWhere_delete_of_imp (q := fun _ => true) (p := p) (t := t) fun _ _ => rfl
  simpa [countWhere, rowsWhere] using this

theorem rowsWhere_delete_of_disjoint (h : ∀ r, p r → q r = false) :
    rowsWhere q (deleteWhere p t) = rowsWhere q t := by
  simp only [rowsWhere, deleteWhere, Multiset.filter_filter]
  apply Multiset.filter_congr
  intro r _
  cases hp : p r with
  | true => simp [h r hp]
  | false => simp

theorem rowsWhere_update_of_disjoint (h : ∀ r, p r → q r = false ∧ q (f r) = false) :
    rowsWhere q (updateWhere p f t) = rowsWhere q t := by
  rw [rowsWhere_update fun r hr => (h r hr).2.trans (h r hr).1.symm]
  apply updateWhere_of_none
  intro r hr
  cases hp : p r with
  | true => simpa [(h r hp).1] using (mem_rowsWhere.mp hr).2
  | false => rfl

end Conditions

/-! ## Statements that do not meet

A statement adds rows and replaces each row it finds by its image. Two statements without a
common row can be swapped. -/

section Meeting
variable {a b : TableOp α β} {t : Multiset α} {r : α}

def TableOp.added : TableOp α β → Multiset α
  | .insert r => {r}
  | _ => 0

def TableOp.image : TableOp α β → α → Multiset α
  | .update p f, r => {if p r then f r else r}
  | .delete p, r => if p r then 0 else {r}
  | _, r => {r}

theorem effect_eq_bind (op : TableOp α β) (t : Multiset α) :
    op.effect t = op.added + t.bind op.image := by
  induction t using Multiset.induction_on with
  | empty => cases op <;> rfl
  | cons r t ih =>
    rw [Multiset.cons_bind, add_left_comm, ← ih]
    cases op with
    | select p columns => rfl
    | insert s => exact Multiset.cons_swap s r t
    | update p f => exact updateWhere_cons
    | delete p =>
      simp only [TableOp.effect, TableOp.image, deleteWhere_cons]
      split
      · rw [zero_add]
      · rw [Multiset.singleton_add]

/-- The statement reads, removes or writes this row in some table. -/
def TableOp.Touches : TableOp α β → α → Prop
  | .select p _, r => p r
  | .insert s, r => r = s
  | .update p f, r => p r ∨ ∃ s, p s ∧ r = f s
  | .delete p, r => p r

def TableOp.isSelect : TableOp α β → Bool
  | .select _ _ => true
  | _ => false

/-- A row that both touch and one of them writes. -/
def TableOp.Conflict (a b : TableOp α β) : Prop :=
  (a.isSelect && b.isSelect) = false ∧ ∃ r, a.Touches r ∧ b.Touches r

theorem TableOp.Conflict.symm (h : a.Conflict b) : b.Conflict a := by
  obtain ⟨hw, r, ha, hb⟩ := h
  exact ⟨by rw [Bool.and_comm]; exact hw, r, hb, ha⟩

theorem touches_added (h : r ∈ a.added) : a.Touches r := by
  cases a with
  | insert s => exact Multiset.mem_singleton.mp h
  | select p columns => exact absurd h (Multiset.notMem_zero r)
  | update p f => exact absurd h (Multiset.notMem_zero r)
  | delete p => exact absurd h (Multiset.notMem_zero r)

theorem image_untouched (h : ¬ a.Touches r) : a.image r = {r} := by
  cases a with
  | select p columns => rfl
  | insert s => rfl
  | update p f =>
    have hp : ¬ p r := fun hp => h (.inl hp)
    simp [TableOp.image, hp]
  | delete p => simp [TableOp.image, show ¬ p r from h]

theorem touches_image {s : α} (h : a.Touches r) (hs : s ∈ a.image r) : a.Touches s := by
  cases a with
  | select p columns => rwa [Multiset.mem_singleton.mp hs]
  | insert q => rwa [Multiset.mem_singleton.mp hs]
  | update p f =>
    simp only [TableOp.image, Multiset.mem_singleton] at hs
    split at hs
    next hp => exact .inr ⟨r, hp, hs⟩
    next => rwa [hs]
  | delete p =>
    have hp : p r := h
    simp [TableOp.image, hp] at hs

theorem bind_image_untouched (h : ∀ r ∈ t, ¬ a.Touches r) : t.bind a.image = t := by
  have heq : t.bind a.image = t.bind fun r => {r} :=
    Multiset.bind_congr fun r hr => image_untouched (h r hr)
  rw [heq, Multiset.bind_singleton, Multiset.map_id']

theorem image_comm (h : ∀ r, a.Touches r → ¬ b.Touches r) (r : α) :
    (a.image r).bind b.image = (b.image r).bind a.image := by
  by_cases ha : a.Touches r
  · rw [bind_image_untouched fun s hs => h s (touches_image ha hs), image_untouched (h r ha),
      Multiset.singleton_bind]
  · rw [image_untouched ha, Multiset.singleton_bind]
    by_cases hb : b.Touches r
    · rw [bind_image_untouched fun s hs hs' => h s hs' (touches_image hb hs)]
    · rw [image_untouched hb, Multiset.singleton_bind, image_untouched ha]

theorem effect_select (h : a.isSelect) (t : Multiset α) : a.effect t = t := by
  cases a with
  | select p columns => rfl
  | insert s => simp [TableOp.isSelect] at h
  | update p f => simp [TableOp.isSelect] at h
  | delete p => simp [TableOp.isSelect] at h

theorem effect_comm (h : ¬ a.Conflict b) (t : Multiset α) :
    b.effect (a.effect t) = a.effect (b.effect t) := by
  cases ha : a.isSelect with
  | true => rw [effect_select ha, effect_select ha]
  | false =>
    have hno : ∀ r, a.Touches r → ¬ b.Touches r := fun r har hbr =>
      h ⟨by rw [ha, Bool.false_and], r, har, hbr⟩
    have hab : a.added.bind b.image = a.added :=
      bind_image_untouched fun r hr => hno r (touches_added hr)
    have hba : b.added.bind a.image = b.added :=
      bind_image_untouched fun r hr har => hno r har (touches_added hr)
    simp only [effect_eq_bind, Multiset.add_bind, Multiset.bind_assoc, hab, hba, image_comm hno]
    rw [add_left_comm]

theorem rowsWhere_effect {p : α → Bool} (h : b.isSelect = false → ∀ r, b.Touches r → p r = false)
    (t : Multiset α) : rowsWhere p (b.effect t) = rowsWhere p t := by
  cases b with
  | select q columns => rfl
  | insert s => rw [TableOp.effect, rowsWhere_cons, h rfl s rfl, if_neg Bool.false_ne_true]
  | update q f =>
    rw [TableOp.effect, rowsWhere_update_of_disjoint fun r hr =>
      ⟨h rfl r (.inl hr), h rfl _ (.inr ⟨r, hr, rfl⟩)⟩]
  | delete q => rw [TableOp.effect, rowsWhere_delete_of_disjoint fun r hr => h rfl r hr]

theorem answer_effect (h : ¬ a.Conflict b) (t : Multiset α) :
    a.answer (b.effect t) = a.answer t := by
  cases a with
  | insert s => rfl
  | update p f => rfl
  | delete p => rfl
  | select p columns =>
    have hno : b.isSelect = false → ∀ r, b.Touches r → p r = false := fun hb r hr => by
      by_contra hp
      exact h ⟨hb, r, Bool.eq_true_of_not_eq_false hp, hr⟩
    simp only [TableOp.answer, rowsWhere_effect hno]

end Meeting

/-! ## A table that keeps a counter for a key -/

section Tally
variable {key other : α → Bool} {count : α → ℤ} {t t' : Multiset α} {n : ℕ} {r : α}

/-- The rows of a key count `n` things: no row for zero, else a single row with `n`. -/
def Tallied (key : α → Bool) (count : α → ℤ) (t : Multiset α) (n : ℕ) : Prop :=
  (n = 0 ∧ rowsWhere key t = 0) ∨ (0 < n ∧ ∃ r, rowsWhere key t = {r} ∧ count r = n)

theorem tallied_none (h : ∀ r ∈ t, key r = false) : Tallied key count t 0 :=
  Or.inl ⟨rfl, rowsWhere_eq_zero.mpr h⟩

theorem Tallied.of_none (ht : Tallied key count t n) (h : ∀ r ∈ t, key r = false) : n = 0 := by
  rcases ht with ⟨rfl, -⟩ | ⟨-, r, hr, -⟩
  · rfl
  · rw [rowsWhere_eq_zero.mpr h] at hr
    exact absurd hr.symm (Multiset.singleton_ne_zero r)

theorem Tallied.of_mem (ht : Tallied key count t n) (hr : r ∈ t) (hk : key r) :
    rowsWhere key t = {r} ∧ count r = n ∧ 0 < n := by
  have hmem : r ∈ rowsWhere key t := mem_rowsWhere.mpr ⟨hr, hk⟩
  rcases ht with ⟨-, h0⟩ | ⟨hn, s, hs, hc⟩
  · rw [h0] at hmem
    exact absurd hmem (Multiset.notMem_zero r)
  · rw [hs, Multiset.mem_singleton] at hmem
    subst hmem
    exact ⟨hs, hc, hn⟩

theorem Tallied.exists_mem (ht : Tallied key count t n) (hn : 0 < n) : ∃ r ∈ t, key r := by
  rcases ht with ⟨h0, -⟩ | ⟨-, r, hr, -⟩
  · omega
  · have hmem : r ∈ rowsWhere key t := by rw [hr]; exact Multiset.mem_singleton_self r
    exact ⟨r, mem_rowsWhere.mp hmem⟩

theorem Tallied.count_le_one (ht : Tallied key count t n) : countWhere key t ≤ 1 := by
  rcases ht with ⟨-, h0⟩ | ⟨-, r, hr, -⟩
  · simp [countWhere, h0]
  · simp [countWhere, hr]

theorem Tallied.frame (ht : Tallied key count t n) (h : rowsWhere key t' = rowsWhere key t) :
    Tallied key count t' n := by
  unfold Tallied
  rw [h]
  exact ht

theorem tallied_insert (h : ∀ s ∈ t, key s = false) (hk : key r) (hc : count r = 1) :
    Tallied key count (r ::ₘ t) 1 := by
  refine Or.inr ⟨Nat.one_pos, r, ?_, by simpa using hc⟩
  rw [rowsWhere_cons, if_pos hk, rowsWhere_eq_zero.mpr h]
  rfl

theorem Tallied.update {f : α → α} {m : ℕ} (ht : Tallied key count t n) (hn : 0 < n)
    (hm : 0 < m) (hk : ∀ s, key (f s) = key s) (hc : ∀ s, count (f s) = m) :
    Tallied key count (updateWhere key f t) m := by
  obtain ⟨r, hr, hkr⟩ := ht.exists_mem hn
  refine Or.inr ⟨hm, f r, ?_, hc r⟩
  rw [rowsWhere_update fun s _ => hk s, (ht.of_mem hr hkr).1]
  simp [updateWhere, hkr]

theorem tallied_delete : Tallied key count (deleteWhere key t) 0 :=
  tallied_none fun _ hs => (mem_deleteWhere.mp hs).2

/-- As `Tallied`, but a row that counts zero may be left. -/
def Counted (key : α → Bool) (count : α → ℤ) (t : Multiset α) (n : ℕ) : Prop :=
  (n = 0 ∧ rowsWhere key t = 0) ∨ ∃ r, rowsWhere key t = {r} ∧ count r = n

theorem Counted.of_none (ht : Counted key count t n) (h : ∀ r ∈ t, key r = false) : n = 0 := by
  rcases ht with ⟨rfl, -⟩ | ⟨r, hr, -⟩
  · rfl
  · rw [rowsWhere_eq_zero.mpr h] at hr
    exact absurd hr.symm (Multiset.singleton_ne_zero r)

theorem Counted.of_mem (ht : Counted key count t n) (hr : r ∈ t) (hk : key r) :
    rowsWhere key t = {r} ∧ count r = n := by
  have hmem : r ∈ rowsWhere key t := mem_rowsWhere.mpr ⟨hr, hk⟩
  rcases ht with ⟨-, h0⟩ | ⟨s, hs, hc⟩
  · rw [h0] at hmem
    exact absurd hmem (Multiset.notMem_zero r)
  · rw [hs, Multiset.mem_singleton] at hmem
    subst hmem
    exact ⟨hs, hc⟩

theorem Counted.frame (ht : Counted key count t n) (h : rowsWhere key t' = rowsWhere key t) :
    Counted key count t' n := by
  unfold Counted
  rw [h]
  exact ht

theorem counted_insert (h : ∀ s ∈ t, key s = false) (hk : key r) (hc : count r = 1) :
    Counted key count (r ::ₘ t) 1 := by
  refine Or.inr ⟨r, ?_, by simpa using hc⟩
  rw [rowsWhere_cons, if_pos hk, rowsWhere_eq_zero.mpr h]
  rfl

theorem Counted.update {f : α → α} {m : ℕ} (ht : Counted key count t n) (hr : r ∈ t)
    (hkr : key r) (hk : ∀ s, key (f s) = key s) (hc : ∀ s, count (f s) = m) :
    Counted key count (updateWhere key f t) m := by
  refine Or.inr ⟨f r, ?_, hc r⟩
  rw [rowsWhere_update fun s _ => hk s, (ht.of_mem hr hkr).1]
  simp [updateWhere, hkr]

theorem counted_delete : Counted key count (deleteWhere key t) 0 :=
  Or.inl ⟨rfl, rowsWhere_eq_zero.mpr fun _ hs => (mem_deleteWhere.mp hs).2⟩

end Tally

end RowTables
