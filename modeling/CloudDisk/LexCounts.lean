import CloudDisk.SortedSets

/-! # When a lexicographic count finds a member

`ZLEXCOUNT key [m [m` walks a structure that is ordered by score first. This module says
exactly when such a walk arrives at a member and stops there, in terms of the entries
around it and their heights, and so when the count of one present member is one. -/
namespace LexCounts

open ByteStrings SortedSets

/-! ## One level of a walk -/

section Level
variable {p : Entry → Bool} {i : ℕ}

theorem first_linked (i : ℕ) (l : List Entry) : (∀ e ∈ l, e.level ≤ i) ∨
    ∃ c e r, l = c ++ e :: r ∧ (∀ u ∈ c, u.level ≤ i) ∧ i < e.level := by
  induction l with
  | nil => exact .inl (by simp)
  | cons a l ih =>
    by_cases ha : a.level ≤ i
    · rcases ih with hall | ⟨c, e, r, rfl, hc, he⟩
      · left
        intro e he
        rcases List.mem_cons.mp he with rfl | he
        · exact ha
        · exact hall e he
      · right
        refine ⟨a :: c, e, r, rfl, ?_, he⟩
        intro u hu
        rcases List.mem_cons.mp hu with rfl | hu
        · exact ha
        · exact hc u hu
    · exact .inr ⟨[], a, l, rfl, by simp, Nat.not_le.mp ha⟩

theorem dropWhile_linked {c r : List Entry} {e : Entry} (hc : ∀ u ∈ c, u.level ≤ i)
    (he : i < e.level) : (c ++ e :: r).dropWhile (fun u => u.level ≤ i) = e :: r := by
  rw [List.dropWhile_append_of_pos (by simpa using hc),
    List.dropWhile_cons_of_neg (by simpa using he)]

theorem walk_none {fuel : ℕ} {l : List Entry} (h : ∀ e ∈ l, e.level ≤ i) :
    walk p i fuel l = l := by
  cases fuel with
  | zero => rfl
  | succ fuel =>
    have hd : l.dropWhile (fun u => u.level ≤ i) = [] := by simpa using h
    simp only [walk, hd]

theorem walk_stops {fuel : ℕ} {c r : List Entry} {e : Entry} (hc : ∀ u ∈ c, u.level ≤ i)
    (he : i < e.level) (hp : p e = false) : walk p i fuel (c ++ e :: r) = c ++ e :: r := by
  cases fuel with
  | zero => rfl
  | succ fuel =>
    simp only [walk, dropWhile_linked hc he, hp, Bool.false_eq_true, if_false]

theorem walk_passes {fuel : ℕ} {c r : List Entry} {e : Entry} (hc : ∀ u ∈ c, u.level ≤ i)
    (he : i < e.level) (hp : p e = true) :
    walk p i (fuel + 1) (c ++ e :: r) = walk p i fuel r := by
  simp only [walk, dropWhile_linked hc he, hp, if_true]

theorem walk_blocked {fuel : ℕ} {c r : List Entry} {y : Entry} (hy : i < y.level)
    (hp : p y = false) : y :: r <:+ walk p i fuel (c ++ y :: r) := by
  induction fuel generalizing c with
  | zero => exact List.suffix_append c _
  | succ fuel ih =>
    rcases first_linked i c with hc | ⟨c₀, e, c₁, rfl, hc₀, he⟩
    · rw [walk_stops hc hy hp]
      exact List.suffix_append c _
    · rw [List.append_assoc, List.cons_append]
      cases hpe : p e with
      | true =>
        rw [walk_passes hc₀ he hpe]
        exact ih
      | false =>
        rw [walk_stops hc₀ he hpe, ← List.cons_append, ← List.append_assoc]
        exact List.suffix_append _ _

theorem walk_over {fuel : ℕ} {c r : List Entry} {v : Entry} (hf : (c ++ v :: r).length ≤ fuel)
    (hc : ∀ e ∈ c, i < e.level → p e = true) (hv : i < v.level) (hp : p v = true) :
    walk p i fuel (c ++ v :: r) <:+ r := by
  induction fuel generalizing c with
  | zero => simp at hf
  | succ fuel ih =>
    rcases first_linked i c with hlow | ⟨c₀, e, c₁, rfl, hc₀, he⟩
    · rw [walk_passes hlow hv hp]
      exact walk_suffix p i fuel r
    · rw [List.append_assoc, List.cons_append, walk_passes hc₀ he (hc e (by simp) he)]
      apply ih
      · simp only [List.length_append, List.length_cons] at hf ⊢
        omega
      · intro u hu
        exact hc u (by simp [hu])

/-- Nodes that all satisfy the condition are passed up to the last one that is linked at
this level, when the walk has to stop right behind them. -/
theorem walk_through {fuel : ℕ} {b t : List Entry} (hf : (b ++ t).length ≤ fuel)
    (hb : ∀ e ∈ b, i < e.level → p e = true)
    (ht : ∀ t₁ v t₂, t = t₁ ++ v :: t₂ → (∀ u ∈ t₁, u.level ≤ i) → i < v.level → p v = false) :
    ∃ c b', b = c ++ b' ∧ (∀ e ∈ b', e.level ≤ i) ∧
      (c = [] ∨ ∃ c₀ e, c = c₀ ++ [e] ∧ i < e.level) ∧ walk p i fuel (b ++ t) = b' ++ t := by
  induction fuel generalizing b with
  | zero =>
    obtain ⟨rfl, rfl⟩ : b = [] ∧ t = [] := by
      simpa using List.length_eq_zero_iff.mp (Nat.le_zero.mp hf)
    exact ⟨[], [], rfl, by simp, .inl rfl, rfl⟩
  | succ fuel ih =>
    rcases first_linked i b with hlow | ⟨c₀, e, b₁, rfl, hc₀, he⟩
    · refine ⟨[], b, rfl, hlow, .inl rfl, ?_⟩
      rcases first_linked i t with htlow | ⟨t₁, v, t₂, rfl, ht₁, hv⟩
      · apply walk_none
        intro u hu
        rcases List.mem_append.mp hu with hu | hu
        · exact hlow u hu
        · exact htlow u hu
      · rw [← List.append_assoc]
        apply walk_stops _ hv (ht t₁ v t₂ rfl ht₁ hv)
        intro u hu
        rcases List.mem_append.mp hu with hu | hu
        · exact hlow u hu
        · exact ht₁ u hu
    · have hlen : (b₁ ++ t).length ≤ fuel := by
        simp only [List.length_append, List.length_cons] at hf ⊢
        omega
      obtain ⟨c, b', rfl, hb', hc, hw⟩ := ih hlen fun u hu => hb u (by simp [hu])
      refine ⟨c₀ ++ e :: c, b', by simp, hb', .inr ?_, ?_⟩
      · rcases hc with rfl | ⟨c₁, e₁, rfl, he₁⟩
        · exact ⟨c₀, e, rfl, he⟩
        · exact ⟨c₀ ++ e :: c₁, e₁, by simp, he₁⟩
      · rw [List.append_assoc, List.cons_append, walk_passes hc₀ he (hb e (by simp) he)]
        exact hw

end Level

/-! ## All levels -/

section Descent
variable {p : Entry → Bool}

theorem descend_suffix (n : ℕ) (l : List Entry) : descend p n l <:+ l := by
  induction n generalizing l with
  | zero => exact List.suffix_refl l
  | succ n ih => exact (ih _).trans (walk_suffix p n l.length l)

theorem descend_blocked {n : ℕ} {c r : List Entry} {y : Entry} (hy : n ≤ y.level)
    (hp : p y = false) : y :: r <:+ descend p n (c ++ y :: r) := by
  induction n generalizing c with
  | zero => exact List.suffix_append c _
  | succ n ih =>
    have hblocked : y :: r <:+ walk p n (c ++ y :: r).length (c ++ y :: r) := walk_blocked hy hp
    obtain ⟨c', hc'⟩ := hblocked
    unfold descend
    rw [← hc']
    exact ih (Nat.le_of_succ_le hy)

theorem descend_ne_of_blocked {n : ℕ} {b t : List Entry} {y : Entry} (hy : y ∈ b)
    (hlevel : n ≤ y.level) (hp : p y = false) : descend p n (b ++ t) ≠ t := by
  obtain ⟨b₁, b₂, rfl⟩ := List.append_of_mem hy
  intro h
  have hblock : y :: (b₂ ++ t) <:+ descend p n (b₁ ++ y :: (b₂ ++ t)) := descend_blocked hlevel hp
  rw [← List.cons_append, ← List.append_assoc, h] at hblock
  have hlen := hblock.length_le
  simp only [List.length_append, List.length_cons] at hlen
  omega

theorem descend_ne_of_passed {k : ℕ} {b t₁ t₂ : List Entry} {v : Entry}
    (hgood : ∀ e ∈ b ++ t₁, k < e.level → p e = true) (hv : k < v.level) (hp : p v = true) :
    descend p (k + 1) (b ++ (t₁ ++ v :: t₂)) ≠ t₁ ++ v :: t₂ := by
  intro h
  have hover : walk p k (b ++ (t₁ ++ v :: t₂)).length (b ++ (t₁ ++ v :: t₂)) <:+ t₂ := by
    rw [← List.append_assoc]
    exact walk_over le_rfl hgood hv hp
  have hend : descend p (k + 1) (b ++ (t₁ ++ v :: t₂)) <:+ t₂ := (descend_suffix k _).trans hover
  rw [h] at hend
  have hlen := hend.length_le
  simp only [List.length_append, List.length_cons] at hlen
  omega

/-- Every node that fails the condition is followed, within the list, by a higher one. -/
def Overtaken (p : Entry → Bool) (height : Entry → ℕ) (b : List Entry) : Prop :=
  ∀ b₁ y b₂, b = b₁ ++ y :: b₂ → p y = false → ∃ w ∈ b₂, height y < height w

/-- Below level `n`, the first node that is linked at a level fails the condition. -/
def Halted (p : Entry → Bool) (height : Entry → ℕ) (n : ℕ) (t : List Entry) : Prop :=
  ∀ i < n, ∀ t₁ v t₂, t = t₁ ++ v :: t₂ → p v = true → i < height v → ∃ u ∈ t₁, i < height u

/-- The first node that is linked at level `k` satisfies the condition. -/
def Leads (p : Entry → Bool) (height : Entry → ℕ) (k : ℕ) (t : List Entry) : Prop :=
  ∃ t₁ v t₂, t = t₁ ++ v :: t₂ ∧ (∀ u ∈ t₁, height u ≤ k) ∧ k < height v ∧ p v = true

variable {height : Entry → ℕ}

theorem halted_succ {k : ℕ} {t : List Entry} :
    Halted p height (k + 1) t ↔ Halted p height k t ∧ ¬ Leads p height k t := by
  constructor
  · intro h
    refine ⟨fun i hi => h i (Nat.lt_succ_of_lt hi), ?_⟩
    rintro ⟨t₁, v, t₂, ht, ht₁, hv, hp⟩
    obtain ⟨u, hu, hku⟩ := h k (Nat.lt_succ_self k) t₁ v t₂ ht hp hv
    exact absurd (ht₁ u hu) (Nat.not_le.mpr hku)
  · rintro ⟨hhalt, hno⟩ i hi t₁ v t₂ ht hp hv
    rcases Nat.lt_succ_iff_lt_or_eq.mp hi with hi | rfl
    · exact hhalt i hi t₁ v t₂ ht hp hv
    · by_contra hnone
      refine hno ⟨t₁, v, t₂, ht, fun u hu => ?_, hv, hp⟩
      by_contra hku
      exact hnone ⟨u, hu, Nat.not_le.mp hku⟩

theorem not_overtaken_of_highest {n : ℕ} {b : List Entry} {y : Entry} (hy : y ∈ b)
    (hmax : ∀ e ∈ b, height e ≤ n) (hn : n ≤ height y) (hp : p y = false) :
    ¬ Overtaken p height b := by
  obtain ⟨b₁, b₂, rfl⟩ := List.append_of_mem hy
  intro hover
  obtain ⟨w, hw, hlt⟩ := hover b₁ y b₂ rfl hp
  have hle := hmax w (by simp [hw])
  omega

theorem overtaken_append {k : ℕ} {c b' : List Entry} (hall : ∀ e ∈ c ++ b', height e ≤ k + 1)
    (hgood : ∀ e ∈ c ++ b', height e = k + 1 → p e = true)
    (hc : c = [] ∨ ∃ c₀ e, c = c₀ ++ [e] ∧ k < height e) :
    Overtaken p height (c ++ b') ↔ Overtaken p height b' := by
  constructor
  · rintro h b₁ y b₂ rfl hy
    exact h (c ++ b₁) y b₂ (by simp) hy
  · intro h b₁ y b₂ hb hy
    rcases List.append_eq_append_iff.mp hb with ⟨s, rfl, hs⟩ | ⟨s, hs, hs'⟩
    · exact h s y b₂ hs hy
    · cases s with
      | nil =>
        simp only [List.append_nil, List.nil_append] at hs hs'
        exact h [] y b₂ hs'.symm hy
      | cons a s =>
        obtain ⟨rfl, rfl⟩ : y = a ∧ b₂ = s ++ b' := by simpa using hs'
        -- the last node before the rest is of full height, and `y` is not
        rcases hc with rfl | ⟨c₀, e, rfl, he⟩
        · simp at hs
        have hmem : e ∈ y :: s := by
          have hlast := congrArg List.getLast? hs
          rw [List.getLast?_append, List.getLast?_append] at hlast
          have : (y :: s).getLast? = some e := by simpa using hlast.symm
          exact List.mem_of_getLast? this
        have hyk : height y ≤ k := by
          have hle : height y ≤ k + 1 := hall y (by rw [hs]; simp)
          have hne : height y ≠ k + 1 := by
            intro heq
            have := hgood y (by rw [hs]; simp) heq
            simp [hy] at this
          omega
        rcases List.mem_cons.mp hmem with rfl | hmem
        · omega
        · exact ⟨e, by simp [hmem], by omega⟩

section TopLevel
variable {k : ℕ} {b t : List Entry} (hlinked : ∀ e : Entry, k < e.level ↔ k < height e)
include hlinked

theorem descend_ne_of_leads (hgood : ∀ e ∈ b, k < height e → p e = true)
    (hleads : Leads p height k t) : descend p (k + 1) (b ++ t) ≠ t := by
  obtain ⟨t₁, v, t₂, rfl, ht₁, hv, hpv⟩ := hleads
  refine descend_ne_of_passed ?_ ((hlinked v).mpr hv) hpv
  intro e he hk
  rcases List.mem_append.mp he with he | he
  · exact hgood e he ((hlinked e).mp hk)
  · exact absurd (ht₁ e he) (Nat.not_le.mpr ((hlinked e).mp hk))

theorem stops_of_not_leads (hleads : ¬ Leads p height k t) :
    ∀ t₁ v t₂, t = t₁ ++ v :: t₂ → (∀ u ∈ t₁, u.level ≤ k) → k < v.level → p v = false := by
  intro t₁ v t₂ ht ht₁ hv
  by_contra hp
  refine hleads ⟨t₁, v, t₂, ht, ?_, (hlinked v).mp hv, by simpa using hp⟩
  intro u hu
  have h₁ := ht₁ u hu
  have h₂ := hlinked u
  omega

end TopLevel

/-- The walk ends exactly in front of `t` when every node before that fails the condition
is jumped over, and nothing in `t` is jumped to. -/
theorem descend_eq_iff {n : ℕ} {b t : List Entry}
    (hlevel : ∀ e : Entry, ∀ i < n, e.level ≤ i ↔ height e ≤ i)
    (hpos : ∀ e ∈ b, 0 < height e) (hmax : ∀ e ∈ b, height e ≤ n) :
    descend p n (b ++ t) = t ↔ Overtaken p height b ∧ Halted p height n t := by
  induction n generalizing b with
  | zero =>
    have hb : b = [] := by
      apply List.eq_nil_iff_forall_not_mem.mpr
      intro e he
      have h0 := hpos e he
      have h1 := hmax e he
      omega
    subst hb
    simp [descend, Overtaken, Halted]
  | succ k ih =>
    have hlinked : ∀ e : Entry, k < e.level ↔ k < height e := by
      intro e
      have := hlevel e k (Nat.lt_succ_self k)
      omega
    by_cases hbad : ∃ y ∈ b, k < height y ∧ p y = false
    · obtain ⟨y, hy, hyk, hpy⟩ := hbad
      apply iff_of_false (descend_ne_of_blocked hy ((hlinked y).mpr hyk) hpy)
      rintro ⟨hover, -⟩
      exact not_overtaken_of_highest hy hmax hyk hpy hover
    have hgood : ∀ e ∈ b, k < height e → p e = true := by
      intro e he hk
      by_contra hp
      exact hbad ⟨e, he, hk, by simpa using hp⟩
    rw [halted_succ]
    by_cases hleads : Leads p height k t
    · exact iff_of_false (descend_ne_of_leads hlinked hgood hleads) fun h => h.2.2 hleads
    -- the top level goes to the last node of `b` that is linked there, the rest is for `ih`
    obtain ⟨c, b', rfl, hb', hc, hw⟩ := walk_through le_rfl
      (fun e he hk => hgood e he ((hlinked e).mp hk)) (stops_of_not_leads hlinked hleads)
    have hlow : ∀ e ∈ b', height e ≤ k := by
      intro e he
      have h₁ := hb' e he
      have h₂ := hlinked e
      omega
    have hc' : c = [] ∨ ∃ c₀ e, c = c₀ ++ [e] ∧ k < height e := by
      rcases hc with rfl | ⟨c₀, e, rfl, he⟩
      · exact .inl rfl
      · exact .inr ⟨c₀, e, rfl, (hlinked e).mp he⟩
    have hrest : descend p k (b' ++ t) = t ↔ Overtaken p height b' ∧ Halted p height k t :=
      ih (fun e i hi => hlevel e i (Nat.lt_succ_of_lt hi))
        (fun e he => hpos e (List.mem_append_right c he)) hlow
    rw [overtaken_append hmax (fun e he hk => hgood e he (by omega)) hc', and_iff_left hleads,
      ← hrest, ← hw]
    rfl

end Descent

/-! ## One member -/

/-- The height at which an entry is linked; in a ziplist all entries are alike. -/
def height (z : SortedSet) (e : Entry) : ℕ :=
  match z.encoding with
  | .ziplist => 0
  | .skiplist => min e.level maxLevel

/-- What a walk towards the entry `x` between `before` and `after` needs. Where members
grow along the set all of this holds. -/
structure Exposed (z : SortedSet) (before : List Entry) (x : Entry) (after : List Entry) :
    Prop where
  first : ∀ y ∈ before.head?, y.member ≤ x.member
  last : ∀ y ∈ after.getLast?, x.member ≤ y.member
  /-- A larger member before `x` has a higher entry between itself and `x`. -/
  passed : ∀ b y b', before = b ++ y :: b' → x.member < y.member →
    ∃ w ∈ b', height z y < height z w
  /-- A smaller member behind `x` has an entry at least as high between `x` and itself. -/
  stopped : ∀ a v a', after = a ++ v :: a' → v.member < x.member →
    ∃ u ∈ a, height z v ≤ height z u

section Member
variable {z : SortedSet} {b a : List Entry} {x : Entry}

theorem exposed_of_sorted (h : (z.entries.map Entry.member).Pairwise (· ≤ ·))
    (hz : z.entries = b ++ x :: a) : Exposed z b x a := by
  rw [hz, List.pairwise_map, List.pairwise_append, List.pairwise_cons] at h
  obtain ⟨-, ⟨hafter, -⟩, hbefore⟩ := h
  constructor
  · intro y hy
    exact hbefore y (List.mem_of_mem_head? hy) x (by simp)
  · intro y hy
    exact hafter y (List.mem_of_getLast? hy)
  · rintro b₁ y b₂ rfl hlt
    exact absurd hlt (not_lt.mpr (hbefore y (by simp) x (by simp)))
  · rintro a₁ v a₂ rfl hlt
    exact absurd hlt (not_lt.mpr (hafter v (by simp)))

theorem isInLexRange_split : isInLexRange x.member x.member (b ++ x :: a) = true ↔
    (∀ y ∈ b.head?, y.member ≤ x.member) ∧ ∀ y ∈ a.getLast?, x.member ≤ y.member := by
  have hhead : (b ++ x :: a).head?.any (fun e => e.member ≤ x.member) = true ↔
      ∀ y ∈ b.head?, y.member ≤ x.member := by
    cases b with
    | nil => simp
    | cons y b => simp
  have hlast : (b ++ x :: a).getLast?.any (fun e => x.member ≤ e.member) = true ↔
      ∀ y ∈ a.getLast?, x.member ≤ y.member := by
    rw [List.getLast?_append_of_ne_nil _ (by simp)]
    rcases List.eq_nil_or_concat a with rfl | ⟨a, y, rfl⟩
    · simp
    · rw [List.concat_eq_append, ← List.cons_append, List.getLast?_concat, List.getLast?_concat]
      simp
  unfold isInLexRange
  rw [decide_eq_true_iff, hhead, hlast]
  simp [and_comm]

theorem split_unique (hz : z.entries = b ++ x :: a) {e : Entry} {r : List Entry}
    (hs : e :: r <:+ z.entries) (hm : e.member = x.member) : e :: r = x :: a := by
  obtain ⟨c, hc⟩ := hs
  have hd := z.distinct
  have hex : e = x := List.inj_on_of_nodup_map hd (by rw [← hc]; simp) (by rw [hz]; simp) hm
  subst hex
  have hnodup : z.entries.Nodup := hd.of_map
  have hx : e ∉ b ∧ e ∉ c := by
    constructor
    · rw [hz] at hnodup
      exact fun h => (List.nodup_append.mp hnodup).2.2 e h e (by simp) rfl
    · rw [← hc] at hnodup
      exact fun h => (List.nodup_append.mp hnodup).2.2 e h e (by simp) rfl
  have heq : c ++ e :: r = b ++ e :: a := hc.trans hz
  have hlen : c.length = b.length := by
    have h := congrArg (List.idxOf e) heq
    rwa [List.idxOf_append_of_notMem hx.2, List.idxOf_append_of_notMem hx.1, List.idxOf_cons_self,
      List.idxOf_cons_self] at h
  exact (List.append_inj heq hlen).2

theorem member_ne_before (hz : z.entries = b ++ x :: a) {y : Entry} (hy : y ∈ b) :
    y.member ≠ x.member := by
  have hd := z.distinct
  rw [hz, List.map_append, List.nodup_append] at hd
  exact hd.2.2 _ (List.mem_map_of_mem hy) _ (by simp)

theorem member_ne_after (hz : z.entries = b ++ x :: a) {y : Entry} (hy : y ∈ a) :
    y.member ≠ x.member := by
  have hd := z.distinct
  rw [hz, List.map_append, List.nodup_append, List.map_cons, List.nodup_cons] at hd
  exact fun h => hd.2.1.1 (List.mem_map.mpr ⟨y, hy, h⟩)

theorem ziplist_exposed_iff (henc : z.encoding = .ziplist) : Exposed z b x a ↔
    isInLexRange x.member x.member (b ++ x :: a) = true ∧ (∀ y ∈ b, y.member ≤ x.member) ∧
      ∀ v ∈ a.head?, x.member ≤ v.member := by
  have hflat : ∀ e, height z e = 0 := by simp [height, henc]
  rw [isInLexRange_split]
  constructor
  · intro h
    refine ⟨⟨h.first, h.last⟩, ?_, ?_⟩
    · intro y hy
      obtain ⟨b₁, b₂, rfl⟩ := List.append_of_mem hy
      by_contra hlt
      obtain ⟨w, -, hw⟩ := h.passed b₁ y b₂ rfl (not_le.mp hlt)
      rw [hflat, hflat] at hw
      exact Nat.lt_irrefl 0 hw
    · intro v hv
      cases a with
      | nil => simp at hv
      | cons u a =>
        obtain rfl : u = v := by simpa using hv
        by_contra hlt
        obtain ⟨w, hw, -⟩ := h.stopped [] u a rfl (not_le.mp hlt)
        simp at hw
  · rintro ⟨⟨hfirst, hlast⟩, hbefore, hnext⟩
    refine ⟨hfirst, hlast, ?_, ?_⟩
    · rintro b₁ y b₂ rfl hlt
      exact absurd hlt (not_lt.mpr (hbefore y (by simp)))
    · rintro a₁ v a₂ rfl hlt
      cases a₁ with
      | nil => exact absurd hlt (not_lt.mpr (hnext v (by simp)))
      | cons u a₁ => exact ⟨u, by simp, by rw [hflat, hflat]⟩

theorem ziplist_one_iff (hz : z.entries = b ++ x :: a) (henc : z.encoding = .ziplist) :
    ziplistLexCount x.member x.member z.entries = 1 ↔ Exposed z b x a := by
  rw [ziplist_exposed_iff henc, hz]
  unfold ziplistLexCount
  by_cases hin : isInLexRange x.member x.member (b ++ x :: a) = true
  · rw [if_pos hin]
    by_cases hall : ∀ y ∈ b, y.member < x.member
    · have hdrop : (b ++ x :: a).dropWhile (fun e => e.member < x.member) = x :: a := by
        rw [List.dropWhile_append_of_pos (by simpa using hall),
          List.dropWhile_cons_of_neg (by simp)]
      have hbefore : ∀ y ∈ b, y.member ≤ x.member := fun y hy => (hall y hy).le
      rw [hdrop]
      simp only [le_refl, if_true, decide_true, List.takeWhile_cons_of_pos, List.length_cons,
        Nat.add_eq_right, List.length_eq_zero_iff, hin, true_and]
      cases a with
      | nil => simpa using hbefore
      | cons v a =>
        have hne := member_ne_after hz (y := v) (by simp)
        have hiff : v.member ≤ x.member ↔ v.member < x.member :=
          ⟨fun h => lt_of_le_of_ne h hne, le_of_lt⟩
        simpa [List.takeWhile_cons, hiff] using fun _ => hbefore
    · -- the walk stops at a larger member in front of `x`
      simp only [not_forall, not_lt] at hall
      obtain ⟨y, hy, hle⟩ := hall
      have hgt : x.member < y.member := lt_of_le_of_ne hle (member_ne_before hz hy).symm
      refine iff_of_false ?_ fun h => absurd hgt (not_lt.mpr (h.2.1 y hy))
      have hsome : b.dropWhile (fun e => e.member < x.member) ≠ [] := by
        intro hnil
        have := List.dropWhile_eq_nil_iff.mp hnil y hy
        simp at this
        exact absurd this hgt.le.not_gt
      obtain ⟨e, r, her⟩ := List.exists_cons_of_ne_nil hsome
      have hmem : e ∈ b := (List.dropWhile_suffix _).subset (by rw [her]; simp)
      have hnot : ¬ e.member < x.member := by
        have := List.head_dropWhile_not (fun e : Entry => decide (e.member < x.member)) hsome
        simpa [her] using this
      have hlt : ¬ e.member ≤ x.member := fun hle =>
        member_ne_before hz hmem (le_antisymm hle (not_lt.mp hnot))
      rw [List.dropWhile_append, her]
      simp [hlt]
  · rw [if_neg hin]
    simp [hin]

theorem skiplist_levels (henc : z.encoding = .skiplist) (e : Entry) (i : ℕ) (hi : i < maxLevel) :
    e.level ≤ i ↔ height z e ≤ i := by
  simp only [height, henc]
  omega

theorem skiplist_height_pos (henc : z.encoding = .skiplist) {e : Entry} (he : e ∈ z.entries) :
    0 < height z e := by
  simp only [height, henc]
  have := z.linked henc e he
  exact lt_min this (by decide)

theorem skiplist_height_le (henc : z.encoding = .skiplist) (e : Entry) :
    height z e ≤ maxLevel := by
  simp only [height, henc]
  exact min_le_right _ _

theorem descend_first_iff (hz : z.entries = b ++ x :: a) (henc : z.encoding = .skiplist) :
    descend (fun e => e.member < x.member) maxLevel z.entries = x :: a ↔
      (∀ b₁ y b₂, b = b₁ ++ y :: b₂ → x.member < y.member → ∃ w ∈ b₂, height z y < height z w) ∧
      ∀ a₁ v a₂, a = a₁ ++ v :: a₂ → v.member < x.member →
        ∃ u ∈ x :: a₁, height z v ≤ height z u := by
  rw [hz, descend_eq_iff (skiplist_levels henc)
    (fun e he => skiplist_height_pos henc (by rw [hz]; simp [he]))
    fun e _ => skiplist_height_le henc e]
  apply and_congr
  · constructor
    · intro h b₁ y b₂ hb hlt
      exact h b₁ y b₂ hb (by simpa using hlt.le)
    · intro h b₁ y b₂ hb hp
      have hne := member_ne_before hz (y := y) (by rw [hb]; simp)
      exact h b₁ y b₂ hb (lt_of_le_of_ne (by simpa using hp) hne.symm)
  · constructor
    · rintro h a₁ v a₂ rfl hlt
      by_contra hnone
      simp only [not_exists, not_and, not_le] at hnone
      have hv : v ∈ z.entries := by rw [hz]; simp
      have hpos := skiplist_height_pos henc hv
      have hmax := skiplist_height_le henc v
      obtain ⟨u, hu, hlevel⟩ :=
        h (height z v - 1) (by omega) (x :: a₁) v a₂ rfl (by simpa using hlt)
        (by omega)
      have := hnone u hu
      omega
    · intro h i hi t₁ v t₂ ht hp hv
      cases t₁ with
      | nil =>
        obtain ⟨rfl, -⟩ : x = v ∧ a = t₂ := by simpa using ht
        simp at hp
      | cons u t₁ =>
        obtain ⟨rfl, rfl⟩ : x = u ∧ a = t₁ ++ v :: t₂ := by simpa using ht
        obtain ⟨w, hw, hle⟩ := h t₁ v t₂ rfl (by simpa using hp)
        exact ⟨w, hw, lt_of_lt_of_le hv hle⟩

theorem descend_last_iff (hz : z.entries = b ++ x :: a) (henc : z.encoding = .skiplist)
    (hover : ∀ b₁ y b₂, b = b₁ ++ y :: b₂ → x.member < y.member →
      ∃ w ∈ b₂, height z y < height z w) :
    descend (fun e => e.member ≤ x.member) maxLevel z.entries = a ↔
      ∀ a₁ v a₂, a = a₁ ++ v :: a₂ → v.member < x.member → ∃ u ∈ a₁, height z v ≤ height z u := by
  have hz' : z.entries = (b ++ [x]) ++ a := by rw [hz]; simp
  rw [hz', descend_eq_iff (skiplist_levels henc)
    (fun e he => skiplist_height_pos henc (by rw [hz']; exact List.mem_append_left a he))
    fun e _ => skiplist_height_le henc e]
  have hovertaken : Overtaken (fun e => e.member ≤ x.member) (height z) (b ++ [x]) := by
    intro b₁ y b₂ hb hp
    have hgt : x.member < y.member := by simpa using hp
    rcases List.eq_nil_or_concat b₂ with rfl | ⟨b₂, e, rfl⟩
    · obtain ⟨-, rfl⟩ := List.append_inj' hb rfl |>.imp_right (by simpa using ·)
      exact absurd hgt (lt_irrefl _)
    · have hsplit : b ++ [x] = (b₁ ++ y :: b₂) ++ [e] := by rw [hb]; simp
      obtain ⟨hb', -⟩ := List.append_inj' hsplit rfl
      obtain ⟨w, hw, hlt⟩ := hover b₁ y b₂ hb' hgt
      exact ⟨w, by simp [hw], hlt⟩
  simp only [hovertaken, true_and]
  constructor
  · rintro h a₁ v a₂ rfl hlt
    by_contra hnone
    simp only [not_exists, not_and, not_le] at hnone
    have hpos := skiplist_height_pos henc (e := v) (by rw [hz]; simp)
    have hmax := skiplist_height_le henc v
    obtain ⟨u, hu, hlevel⟩ := h (height z v - 1) (by omega) a₁ v a₂ rfl (by simpa using hlt.le)
      (by omega)
    have := hnone u hu
    omega
  · rintro h i hi t₁ v t₂ rfl hp hv
    have hne := member_ne_after hz (y := v) (by simp)
    obtain ⟨u, hu, hle⟩ := h t₁ v t₂ rfl (lt_of_le_of_ne (by simpa using hp) hne)
    exact ⟨u, hu, lt_of_lt_of_le hv hle⟩

theorem entries_length (hz : z.entries = b ++ x :: a) :
    z.entries.length = b.length + a.length + 1 := by
  rw [hz]
  simp only [List.length_append, List.length_cons]
  omega

theorem skiplist_one (hz : z.entries = b ++ x :: a) (henc : z.encoding = .skiplist)
    (h : Exposed z b x a) : skiplistLexCount x.member x.member z.entries = 1 := by
  have hlen := entries_length hz
  have hin : isInLexRange x.member x.member z.entries = true := by
    rw [hz]
    exact isInLexRange_split.mpr ⟨h.first, h.last⟩
  have hfirst := (descend_first_iff hz henc).mpr ⟨h.passed, fun a₁ v a₂ ha hlt => by
    obtain ⟨u, hu, hle⟩ := h.stopped a₁ v a₂ ha hlt
    exact ⟨u, List.mem_cons_of_mem x hu, hle⟩⟩
  have hlast := (descend_last_iff hz henc h.passed).mpr h.stopped
  have hpassed : z.entries.length - a.length = b.length + 1 := by omega
  have htake : z.entries.take (b.length + 1) = b ++ [x] := by
    rw [show z.entries = (b ++ [x]) ++ a by rw [hz]; simp]
    exact List.take_left' (by simp)
  have hf : skiplistFirstRank x.member x.member z.entries = some (b.length + 1) := by
    have hrank : z.entries.length - (x :: a).length + 1 = b.length + 1 := by
      rw [List.length_cons]
      omega
    unfold skiplistFirstRank
    rw [if_pos hin, hfirst]
    simp only [le_refl, if_true, hrank]
  have hl : skiplistLastRank x.member x.member z.entries = some (b.length + 1) := by
    unfold skiplistLastRank
    rw [if_pos hin, hlast, hpassed]
    dsimp only
    rw [htake, List.getLast?_concat]
    simp only [le_refl, if_true]
  unfold skiplistLexCount
  rw [hf, hl]
  dsimp only
  omega

theorem firstRank_eq_some {lo hi : CString} {l : List Entry} {first : ℕ}
    (h : skiplistFirstRank lo hi l = some first) : isInLexRange lo hi l = true ∧
      ∃ e r, descend (fun e => e.member < lo) maxLevel l = e :: r ∧ e.member ≤ hi ∧
        first = l.length - (e :: r).length + 1 := by
  unfold skiplistFirstRank at h
  split at h
  · rename_i hin
    refine ⟨hin, ?_⟩
    dsimp only at h
    split at h
    · cases h
    · rename_i e r hd
      split at h
      · rename_i hle
        rw [hd] at h
        exact ⟨e, r, hd, hle, (Option.some.inj h).symm⟩
      · cases h
  · cases h

theorem lastRank_eq_some {lo hi : CString} {l : List Entry} {last : ℕ}
    (h : skiplistLastRank lo hi l = some last) :
    last = l.length - (descend (fun e => e.member ≤ hi) maxLevel l).length := by
  unfold skiplistLastRank at h
  split at h
  · dsimp only at h
    split at h
    · cases h
    · split at h
      · exact (Option.some.inj h).symm
      · cases h
  · cases h

theorem first_is_member (hz : z.entries = b ++ x :: a) (henc : z.encoding = .skiplist)
    {first : ℕ} (h : skiplistFirstRank x.member x.member z.entries = some first) :
    isInLexRange x.member x.member z.entries = true ∧ first = b.length + 1 ∧
      descend (fun e => e.member < x.member) maxLevel z.entries = x :: a := by
  obtain ⟨hin, e, r, hd, hle, rfl⟩ := firstRank_eq_some h
  have hge : ¬ e.member < x.member := by
    have hstops := (descend_stops (n := 31) (z.linked henc) e r hd).1
    simpa using hstops
  have hx : e :: r = x :: a := split_unique hz (hd ▸ descend_suffix maxLevel z.entries)
    (le_antisymm hle (not_lt.mp hge))
  refine ⟨hin, ?_, hd.trans hx⟩
  rw [hx, entries_length hz, List.length_cons]
  omega

theorem exposed_of_one (hz : z.entries = b ++ x :: a) (henc : z.encoding = .skiplist)
    (h : skiplistLexCount x.member x.member z.entries = 1) : Exposed z b x a := by
  have hlen := entries_length hz
  unfold skiplistLexCount at h
  cases hfirst : skiplistFirstRank x.member x.member z.entries with
  | none => simp [hfirst] at h
  | some first =>
    obtain ⟨hin, rfl, hd⟩ := first_is_member hz henc hfirst
    rw [hz, isInLexRange_split] at hin
    obtain ⟨hover, -⟩ := (descend_first_iff hz henc).mp hd
    refine ⟨hin.1, hin.2, hover, ?_⟩
    cases hlast : skiplistLastRank x.member x.member z.entries with
    | none =>
      -- no last element: then the count runs to the end of the set
      simp only [hfirst, hlast] at h
      have ha : a = [] := by
        apply List.length_eq_zero_iff.mp
        omega
      rintro a₁ v a₂ hv
      simp [ha] at hv
    | some last =>
      simp only [hfirst, hlast, lastRank_eq_some hlast] at h
      have hsuffix := descend_suffix (p := fun e => e.member ≤ x.member) maxLevel z.entries
      have hsuffix' : a <:+ z.entries := by
        rw [hz]
        exact (List.suffix_cons x a).trans (List.suffix_append b _)
      have hle := hsuffix.length_le
      apply (descend_last_iff hz henc hover).mp
      apply (List.suffix_of_suffix_length_le hsuffix hsuffix' (by omega)).eq_of_length
      omega

theorem skiplist_one_iff (hz : z.entries = b ++ x :: a) (henc : z.encoding = .skiplist) :
    skiplistLexCount x.member x.member z.entries = 1 ↔ Exposed z b x a := by
  constructor
  · exact exposed_of_one hz henc
  · exact skiplist_one hz henc

theorem lexCount_one_iff (hz : z.entries = b ++ x :: a) :
    z.lexCount x.member x.member = 1 ↔ Exposed z b x a := by
  unfold SortedSet.lexCount
  cases henc : z.encoding with
  | ziplist =>
    rw [← ziplist_one_iff hz henc]
    exact Int.ofNat_inj
  | skiplist => exact skiplist_one_iff hz henc

end Member

/-- The count of a single member is the membership test exactly when the member, if it is
there, is exposed. -/
theorem lexCount_member_iff (z : SortedSet) (m : CString) :
    z.lexCount m m = (if (z.score? m).isSome then 1 else 0) ↔
      ∀ b x a, z.entries = b ++ x :: a → x.member = m → Exposed z b x a := by
  by_cases hm : (z.score? m).isSome
  · obtain ⟨s, hs⟩ := Option.isSome_iff_exists.mp hm
    obtain ⟨x, hx, -, rfl⟩ := SortedSet.mem_pairs.mp (SortedSet.score?_eq_some.mp hs)
    obtain ⟨b, a, hz⟩ := List.append_of_mem hx
    rw [if_pos hm, lexCount_one_iff hz]
    constructor
    · intro h b' x' a' hz' hx'
      obtain ⟨rfl, rfl⟩ : x' = x ∧ a' = a := by
        simpa using split_unique hz (hz' ▸ List.suffix_append b' _) hx'
      rwa [List.append_cancel_right (hz'.symm.trans hz)]
    · intro h
      exact h b x a hz rfl
  · have habs : ∀ s, (s, m) ∉ z.pairs := by
      intro s hs
      rw [← SortedSet.score?_eq_some] at hs
      simp [hs] at hm
    rw [if_neg hm, SortedSet.lexCount_absent habs]
    simp only [true_iff]
    rintro b x a hz rfl
    exact absurd (SortedSet.mem_pairs.mpr ⟨x, by rw [hz]; simp, rfl, rfl⟩) (habs x.score)

end LexCounts
