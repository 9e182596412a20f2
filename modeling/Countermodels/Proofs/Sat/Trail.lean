import Countermodels.Proofs.Cnf.Lit
import Countermodels.Proofs.Gives
import Countermodels.Sat.Trail

/-! The trail as a list of true literals. A well-formed trail has each variable at most once, and the
tables of values and levels say what the list says: a literal is true exactly when it is on the trail,
and its level is the number of levels opened before its place. -/

namespace Countermodels.Sat

namespace Value

theorem flip_eq_free {v : Value} {b : Bool} : v.flip b = .free ↔ v = .free := by
  cases v <;> cases b <;> simp [flip]

theorem flip_eq_fails {v : Value} {b : Bool} : v.flip b = .fails ↔ v.flip (!b) = .holds := by
  cases v <;> cases b <;> simp [flip]

end Value

namespace Trail

/-- The value of a literal; that of an unknown variable is free. -/
def valueOf (t : Trail) (l : Lit) : Value := (t.values.getD l.var .free).flip l.negated

def levelOf (t : Trail) (v : Nat) : Nat := (t.origins.getD v {}).level

def reasonOf (t : Trail) (v : Nat) : Option Nat := (t.origins.getD v {}).reason

/-- The decision level of a place on the trail. -/
def levelAt (t : Trail) (i : Nat) : Nat := t.marks.toList.countP (· ≤ i)

structure Valid (t : Trail) : Prop where
  origins_size : t.origins.size = t.values.size
  distinct : (t.lits.toList.map Lit.var).Nodup
  holds_iff : ∀ l, t.valueOf l = .holds ↔ l ∈ t.lits
  marks_sorted : t.marks.toList.Pairwise (· ≤ ·)
  /-- A level is only opened when all literals before it have been propagated. -/
  marks_le : ∀ m ∈ t.marks, m ≤ t.head
  head_le : t.head ≤ t.lits.size
  level_eq : ∀ i l, t.lits[i]? = some l → t.levelOf l.var = t.levelAt i

variable {t : Trail} {l m : Lit} {v i j k : Nat}

theorem value_eq (h : l.var < t.values.size) : t.value l = .ok (t.valueOf l) := by
  simp [value, valueOf, Table.read_of_lt h, h, bind, Except.bind, pure, Except.pure]

theorem level_eq_ok (h : v < t.origins.size) : t.level v = .ok (t.levelOf v) := by
  simp [level, levelOf, Table.read_of_lt h, h, bind, Except.bind, pure, Except.pure]

theorem reason_eq_ok (h : v < t.origins.size) : t.reason v = .ok (t.reasonOf v) := by
  simp [reason, reasonOf, Table.read_of_lt h, h, bind, Except.bind, pure, Except.pure]

theorem valueOf_neg_holds : t.valueOf l.neg = .holds ↔ t.valueOf l = .fails := by
  rw [valueOf, valueOf, Value.flip_eq_fails, Lit.var_neg, Lit.negated_neg]

theorem levelAt_le_depth : t.levelAt i ≤ t.depth := by
  simpa [levelAt, depth] using t.marks.toList.countP_le_length (p := (· ≤ i))

theorem levelAt_mono (h : i ≤ j) : t.levelAt i ≤ t.levelAt j :=
  List.countP_mono_left fun m _ hm => by
    simp only [decide_eq_true_eq] at hm ⊢
    omega

theorem levelAt_eq_depth (h : ∀ m ∈ t.marks, m ≤ i) : t.levelAt i = t.depth := by
  have : t.marks.toList.countP (· ≤ i) = t.marks.toList.length :=
    List.countP_eq_length.2 fun m hm => decide_eq_true (h m (Array.mem_toList_iff.1 hm))
  simpa [levelAt, depth] using this

/-- In an ascending list, no more than `k` entries are at most `i` exactly when the entry after `k`
others exceeds `i`. -/
theorem countP_le_iff {ms : List Nat} (hs : ms.Pairwise (· ≤ ·)) (hk : k < ms.length) :
    ms.countP (· ≤ i) ≤ k ↔ i < ms[k] := by
  induction ms generalizing k with
  | nil => simp at hk
  | cons m ms ih =>
    rw [List.pairwise_cons] at hs
    by_cases hm : m ≤ i
    · rw [List.countP_cons_of_pos (by simpa using hm)]
      cases k with
      | zero => simpa using hm
      | succ k =>
        rw [List.getElem_cons_succ, ← ih hs.2 (by simpa using hk)]
        omega
    · have hnone : ms.countP (· ≤ i) = 0 := List.countP_eq_zero.2 fun a ha => by
        have := hs.1 a ha
        simp only [decide_eq_true_eq]
        omega
      rw [List.countP_cons_of_neg (by simpa using hm), hnone]
      cases k with
      | zero => simp; omega
      | succ k =>
        have hk : k < ms.length := by simpa using hk
        have := hs.1 ms[k] (List.getElem_mem hk)
        rw [List.getElem_cons_succ]
        omega

namespace Valid

variable (ht : t.Valid)

include ht

theorem levelAt_le_iff {start : Nat} (hk : t.marks[k]? = some start) :
    t.levelAt i ≤ k ↔ i < start := by
  obtain ⟨hlt, rfl⟩ := Array.getElem?_eq_some_iff.1 hk
  exact countP_le_iff ht.marks_sorted (Array.length_toList ▸ hlt)

theorem known (h : l ∈ t.lits) : l.var < t.values.size := by
  by_contra hn
  have := (ht.holds_iff l).2 h
  rw [valueOf, Array.getD_eq_getD_getElem?, Array.getElem?_eq_none (by omega)] at this
  cases this

theorem fails_iff : t.valueOf l = .fails ↔ l.neg ∈ t.lits := by
  rw [← valueOf_neg_holds, ht.holds_iff]

theorem free_iff : t.valueOf l = .free ↔ l ∉ t.lits ∧ l.neg ∉ t.lits := by
  rw [← ht.holds_iff, ← ht.fails_iff]
  cases t.valueOf l <;> simp

theorem not_mem_neg (h : l ∈ t.lits) : l.neg ∉ t.lits := fun hn => by
  have hh := (ht.holds_iff l).2 h
  rw [ht.fails_iff.2 hn] at hh
  cases hh

theorem place_unique (hi : t.lits[i]? = some l) (hj : t.lits[j]? = some m) (hv : l.var = m.var) : i = j := by
  have hil : i < t.lits.size := (Array.getElem?_eq_some_iff.1 hi).1
  refine (List.getElem?_inj (by simpa using hil) ht.distinct).1 ?_
  simp [hi, hj, hv]

theorem level_le_depth (h : l ∈ t.lits) : t.levelOf l.var ≤ t.depth := by
  obtain ⟨i, hi⟩ := Array.mem_iff_getElem?.1 h
  rw [ht.level_eq i l hi]
  exact levelAt_le_depth

/-- Literals that wait to be propagated are of the current level. -/
theorem level_waiting (hi : t.lits[i]? = some l) (h : t.head ≤ i) : t.levelOf l.var = t.depth := by
  rw [ht.level_eq i l hi]
  exact levelAt_eq_depth fun m hm => Nat.le_trans (ht.marks_le m hm) h

theorem size_le : t.lits.size ≤ t.values.size := by
  have hsub : t.lits.toList.map Lit.var ⊆ List.range t.values.size := fun v hv => by
    obtain ⟨l, hl, rfl⟩ := List.mem_map.1 hv
    exact List.mem_range.2 (ht.known (Array.mem_toList_iff.1 hl))
  simpa using (List.subperm_of_subset ht.distinct hsub).length_le

end Valid

/-! Making variables known, opening a level and taking the next literal. -/

@[simp] theorem valueOf_declare (n : Nat) : (t.declare n).valueOf l = t.valueOf l := by
  simp only [valueOf, declare, Table.getD_grow]

@[simp] theorem levelOf_declare (n : Nat) : (t.declare n).levelOf v = t.levelOf v := by
  simp only [levelOf, declare, Table.getD_grow]

@[simp] theorem reasonOf_declare (n : Nat) : (t.declare n).reasonOf v = t.reasonOf v := by
  simp only [reasonOf, declare, Table.getD_grow]

theorem Valid.declare (ht : t.Valid) (n : Nat) : (t.declare n).Valid where
  origins_size := by simp [Trail.declare, ht.origins_size]
  distinct := ht.distinct
  holds_iff l := by rw [valueOf_declare]; exact ht.holds_iff l
  marks_sorted := ht.marks_sorted
  marks_le := ht.marks_le
  head_le := ht.head_le
  level_eq i l hi := by rw [levelOf_declare]; exact ht.level_eq i l hi

theorem levelAt_openLevel (h : i < t.lits.size) : t.openLevel.levelAt i = t.levelAt i := by
  have hlast : [t.lits.size].countP (· ≤ i) = 0 := List.countP_eq_zero.2 (by simpa using h)
  simp only [levelAt, openLevel, Array.toList_push, List.countP_append, hlast, Nat.add_zero]

theorem Valid.openLevel (ht : t.Valid) (hh : t.head = t.lits.size) : t.openLevel.Valid where
  origins_size := ht.origins_size
  distinct := ht.distinct
  holds_iff := ht.holds_iff
  marks_sorted := by
    simp only [Trail.openLevel, Array.toList_push]
    refine List.pairwise_append.2 ⟨ht.marks_sorted, List.pairwise_singleton .., fun m hm n hn => ?_⟩
    rw [List.mem_singleton.1 hn, ← hh]
    exact ht.marks_le m (Array.mem_toList_iff.1 hm)
  marks_le m hm := by
    rcases Array.mem_push.1 hm with hm | rfl
    · exact ht.marks_le m hm
    · exact Nat.le_of_eq hh.symm
  head_le := ht.head_le
  level_eq i l hi := by
    have hi : t.lits[i]? = some l := hi
    rw [levelAt_openLevel (Array.getElem?_eq_some_iff.1 hi).1]
    exact ht.level_eq i l hi

theorem next?_eq_none (h : t.next? = none) (ht : t.Valid) : t.head = t.lits.size := by
  unfold next? at h
  split at h
  · cases h
  · have := ht.head_le
    omega

/-- The trail with one more literal propagated. -/
def advance (t : Trail) : Trail := { t with head := t.head + 1 }

theorem next?_eq_some {p : Lit} {t' : Trail} (h : t.next? = some (p, t')) :
    t.lits[t.head]? = some p ∧ t' = t.advance := by
  unfold next? at h
  split at h
  · next hlt =>
    obtain ⟨rfl, rfl⟩ := Prod.mk.inj (Option.some.inj h)
    exact ⟨Array.getElem?_eq_getElem hlt, rfl⟩
  · cases h

theorem Valid.advance (ht : t.Valid) (h : t.head < t.lits.size) : t.advance.Valid where
  origins_size := ht.origins_size
  distinct := ht.distinct
  holds_iff := ht.holds_iff
  marks_sorted := ht.marks_sorted
  marks_le m hm := Nat.le_succ_of_le (ht.marks_le m hm)
  head_le := h
  level_eq := ht.level_eq

/-- The trail whose literals all count as propagated. -/
def finish (t : Trail) : Trail := { t with head := t.lits.size }

theorem Valid.finish (ht : t.Valid) : t.finish.Valid where
  origins_size := ht.origins_size
  distinct := ht.distinct
  holds_iff := ht.holds_iff
  marks_sorted := ht.marks_sorted
  marks_le m hm := Nat.le_trans (ht.marks_le m hm) ht.head_le
  head_le := Nat.le_refl _
  level_eq := ht.level_eq

/-! Assigning a literal. -/

/-- The trail with one more literal at its end. -/
def pushed (t : Trail) (l : Lit) (reason : Option Nat) : Trail :=
  { t with
    values := t.values.setIfInBounds l.var (.ofBool !l.negated)
    origins := t.origins.setIfInBounds l.var ⟨reason, t.depth⟩
    lits := t.lits.push l }

variable {r : Option Nat}

theorem assign_eq (hl : l.var < t.values.size) (hf : t.valueOf l = .free) :
    t.assign l r = .ok (t.pushed l r) := by
  have hv : t.values[l.var] = .free := by
    simpa [valueOf, hl, Value.flip_eq_free] using hf
  simp [assign, pushed, Table.read_of_lt hl, hv, bind, Except.bind, pure, Except.pure, depth]

theorem levelOf_pushed (hl : l.var < t.origins.size) :
    (t.pushed l r).levelOf v = if v = l.var then t.depth else t.levelOf v := by
  rw [levelOf, pushed, Table.getD_setIfInBounds hl]
  split <;> rfl

theorem reasonOf_pushed (hl : l.var < t.origins.size) :
    (t.pushed l r).reasonOf v = if v = l.var then r else t.reasonOf v := by
  rw [reasonOf, pushed, Table.getD_setIfInBounds hl]
  split <;> rfl

theorem valueOf_pushed (hl : l.var < t.values.size) :
    (t.pushed l r).valueOf m = if m.var = l.var then (Value.ofBool !l.negated).flip m.negated
      else t.valueOf m := by
  rw [valueOf, pushed, Table.getD_setIfInBounds hl]
  split <;> rfl

/-- A variable that is free after a literal was assigned is another one, and was free before. -/
theorem free_of_pushed (h : (t.pushed l r).values[v]? = some .free) : v ≠ l.var ∧ t.values[v]? = some .free := by
  rw [pushed, Array.getElem?_setIfInBounds] at h
  split at h
  · cases hneg : l.negated <;> simp [Value.ofBool, hneg] at h
  · next hne => exact ⟨Ne.symm hne, h⟩

theorem Valid.pushed (ht : t.Valid) (hl : l.var < t.values.size) (hf : t.valueOf l = .free) :
    (t.pushed l r).Valid where
  origins_size := by simp [Trail.pushed, ht.origins_size]
  distinct := by
    obtain ⟨hp, hn⟩ := ht.free_iff.1 hf
    simp only [Trail.pushed, Array.toList_push, List.map_append, List.map_cons, List.map_nil]
    refine List.nodup_append.2 ⟨ht.distinct, by simp, ?_⟩
    intro a ha b hb hab
    obtain ⟨m, hm, rfl⟩ := List.mem_map.1 ha
    rw [List.mem_singleton.1 hb] at hab
    rcases Lit.eq_or_eq_neg_of_var_eq hab with rfl | rfl
    · exact hp (Array.mem_toList_iff.1 hm)
    · exact hn (Array.mem_toList_iff.1 hm)
  holds_iff m := by
    obtain ⟨hp, hn⟩ := ht.free_iff.1 hf
    rw [valueOf_pushed hl, Trail.pushed, Array.mem_push]
    split
    · next hv =>
      rcases Lit.eq_or_eq_neg_of_var_eq hv with rfl | rfl
      · cases h : m.negated <;> simp [Value.flip, Value.ofBool]
      · have := Lit.neg_ne l
        cases h : l.negated <;> simp [Value.flip, Value.ofBool, h, hn, this]
    · next hv =>
      rw [ht.holds_iff]
      exact ⟨.inl, fun h => h.resolve_right fun he => hv (he ▸ rfl)⟩
  marks_sorted := ht.marks_sorted
  marks_le := ht.marks_le
  head_le := by
    simp only [Trail.pushed, Array.size_push]
    exact Nat.le_succ_of_le ht.head_le
  level_eq i m hi := by
    rw [levelOf_pushed (ht.origins_size ▸ hl)]
    simp only [Trail.pushed, Array.getElem?_push] at hi
    split at hi
    · next he =>
      obtain rfl := Option.some.inj hi
      rw [if_pos rfl, he]
      exact (levelAt_eq_depth fun m hm => Nat.le_trans (ht.marks_le m hm) ht.head_le).symm
    · next he =>
      rw [if_neg]
      · exact ht.level_eq i m hi
      · intro hv
        obtain ⟨hp, hn⟩ := ht.free_iff.1 hf
        have hm : m ∈ t.lits := Array.mem_of_getElem? hi
        rcases Lit.eq_or_eq_neg_of_var_eq hv with rfl | rfl
        · exact hp hm
        · exact hn hm

/-! Undoing levels. -/

/-- The trail cut off at a place where a level starts. -/
def cutAt (t : Trail) (level start : Nat) : Trail :=
  { t with
    values := (t.lits.toList.drop start).reverse.foldl (fun values l => values.setIfInBounds l.var .free)
      t.values
    lits := t.lits.shrink start
    marks := t.marks.shrink level
    head := start }

variable {level start : Nat}

theorem cancel_eq_self (h : t.depth ≤ level) : t.cancel level = .ok ([], t) := by
  simp [cancel, h, pure, Except.pure]

theorem cancel_eq (h : t.marks[level]? = some start) :
    t.cancel level = .ok ((t.lits.toList.drop start).reverse, t.cutAt level start) := by
  have hlt : level < t.marks.size := (Array.getElem?_eq_some_iff.1 h).1
  have hun : (t.lits.extract start t.lits.size).toList = t.lits.toList.drop start := by
    rw [Array.toList_extract, List.extract_eq_take_drop, List.take_of_length_le (by simp)]
  have hd : ¬ t.depth ≤ level := Nat.not_le.2 hlt
  simp only [cancel, hd, ↓reduceIte, Table.read_of_some h, ok_bind, hun]
  rfl

theorem getD_free (ls : List Lit) (values : Array Value) :
    (ls.foldl (fun values l => values.setIfInBounds l.var Value.free) values).getD v .free =
      if v ∈ ls.map Lit.var then .free else values.getD v .free := by
  induction ls generalizing values with
  | nil => simp
  | cons l ls ih =>
    rw [List.foldl_cons, ih, List.map_cons]
    by_cases hv : v ∈ ls.map Lit.var
    · rw [if_pos hv, if_pos (List.mem_cons_of_mem _ hv)]
    · rw [if_neg hv]
      by_cases hl : l.var < values.size
      · rw [Table.getD_setIfInBounds hl]
        by_cases he : v = l.var
        · simp [he]
        · rw [if_neg he, if_neg (by simp [he, hv])]
      · rw [Array.setIfInBounds_eq_of_size_le (by omega)]
        by_cases he : v = l.var
        · subst he
          rw [if_pos (List.mem_cons_self), Array.getD_eq_getD_getElem?, Array.getElem?_eq_none (by omega)]
          rfl
        · rw [if_neg (by simp [he, hv])]

theorem size_free (ls : List Lit) (values : Array Value) :
    (ls.foldl (fun values l => values.setIfInBounds l.var Value.free) values).size = values.size := by
  induction ls generalizing values with
  | nil => rfl
  | cons l ls ih => rw [List.foldl_cons, ih, Array.size_setIfInBounds]

@[simp] theorem size_values_cutAt : (t.cutAt level start).values.size = t.values.size := size_free ..

theorem toList_lits_cutAt : (t.cutAt level start).lits.toList = t.lits.toList.take start := by
  simp [cutAt]

theorem getElem?_lits_cutAt :
    (t.cutAt level start).lits[i]? = if i < start then t.lits[i]? else none := by
  rw [← Array.getElem?_toList, toList_lits_cutAt, List.getElem?_take, Array.getElem?_toList]

theorem levelAt_cutAt (ht : t.Valid) (h : t.marks[level]? = some start) (hi : i < start) :
    (t.cutAt level start).levelAt i = t.levelAt i := by
  have hsplit : t.marks.toList = t.marks.toList.take level ++ t.marks.toList.drop level :=
    (List.take_append_drop ..).symm
  have hzero : (t.marks.toList.drop level).countP (· ≤ i) = 0 := by
    refine List.countP_eq_zero.2 fun m hm => ?_
    obtain ⟨k, hk⟩ := List.mem_iff_getElem?.1 hm
    rw [List.getElem?_drop, Array.getElem?_toList] at hk
    obtain ⟨hlt, rfl⟩ := Array.getElem?_eq_some_iff.1 h
    obtain ⟨hlt', rfl⟩ := Array.getElem?_eq_some_iff.1 hk
    have hle : t.marks[level] ≤ t.marks[level + k] := by
      rcases Nat.eq_zero_or_pos k with rfl | hpos
      · exact Nat.le_refl _
      · exact List.pairwise_iff_getElem.1 ht.marks_sorted _ _ (by simpa using hlt) (by simpa using hlt')
          (by omega)
    simp only [decide_eq_true_eq]
    omega
  have hmarks : (t.cutAt level start).marks.toList = t.marks.toList.take level := by simp [cutAt]
  rw [levelAt, levelAt, hmarks]
  conv_rhs => rw [hsplit, List.countP_append, hzero, Nat.add_zero]

theorem Valid.cutAt (ht : t.Valid) (h : t.marks[level]? = some start) : (t.cutAt level start).Valid where
  origins_size := by rw [size_values_cutAt]; exact ht.origins_size
  distinct := by
    rw [toList_lits_cutAt, List.map_take]
    exact ht.distinct.sublist (List.take_sublist ..)
  holds_iff l := by
    have hnd := ht.distinct
    rw [← List.take_append_drop start t.lits.toList, List.map_append, List.nodup_append] at hnd
    rw [← Array.mem_toList_iff, toList_lits_cutAt, valueOf, Trail.cutAt, getD_free]
    simp only [List.map_reverse, List.mem_reverse]
    split
    · next hv =>
      simp only [Value.flip, reduceCtorEq, false_iff]
      exact fun hl => hnd.2.2 _ (List.mem_map_of_mem hl) _ hv rfl
    · next hv =>
      have hmem : l ∈ t.lits ↔ l ∈ t.lits.toList.take start ∨ l ∈ t.lits.toList.drop start := by
        rw [← List.mem_append, List.take_append_drop, Array.mem_toList_iff]
      rw [show (t.values.getD l.var .free).flip l.negated = t.valueOf l from rfl, ht.holds_iff, hmem]
      exact ⟨fun hl => hl.resolve_right fun hd => hv (List.mem_map_of_mem hd), .inl⟩
  marks_sorted := by
    simp only [Trail.cutAt, Array.toList_shrink]
    exact ht.marks_sorted.sublist (List.take_sublist ..)
  marks_le m hm := by
    obtain ⟨k, hk⟩ := List.mem_iff_getElem?.1 (Array.mem_toList_iff.2 hm)
    simp only [Trail.cutAt, Array.toList_shrink, List.getElem?_take, Array.getElem?_toList] at hk
    split at hk
    · next hkl =>
      obtain ⟨hlt, rfl⟩ := Array.getElem?_eq_some_iff.1 h
      obtain ⟨hlt', rfl⟩ := Array.getElem?_eq_some_iff.1 hk
      exact List.pairwise_iff_getElem.1 ht.marks_sorted _ _ (by simpa using hlt') (by simpa using hlt) hkl
    · cases hk
  head_le := by
    have hle : start ≤ t.lits.size :=
      Nat.le_trans (ht.marks_le start (Array.mem_of_getElem? h)) ht.head_le
    simp only [Trail.cutAt, Array.size_shrink]
    omega
  level_eq i l hi := by
    rw [getElem?_lits_cutAt] at hi
    split at hi
    · next hlt =>
      rw [levelAt_cutAt ht h hlt]
      exact ht.level_eq i l hi
    · cases hi

/-- The literals that stay are those of the levels that stay. -/
theorem mem_cutAt (ht : t.Valid) (h : t.marks[level]? = some start) :
    l ∈ (t.cutAt level start).lits ↔ l ∈ t.lits ∧ t.levelOf l.var ≤ level := by
  constructor
  · intro hl
    obtain ⟨i, hi⟩ := Array.mem_iff_getElem?.1 hl
    rw [getElem?_lits_cutAt] at hi
    split at hi
    · next hlt =>
      refine ⟨Array.mem_of_getElem? hi, ?_⟩
      rw [ht.level_eq i l hi, ht.levelAt_le_iff h]
      exact hlt
    · cases hi
  · rintro ⟨hl, hle⟩
    obtain ⟨i, hi⟩ := Array.mem_iff_getElem?.1 hl
    rw [ht.level_eq i l hi, ht.levelAt_le_iff h] at hle
    refine Array.mem_of_getElem? (i := i) ?_
    rw [getElem?_lits_cutAt, if_pos hle, hi]

theorem depth_cutAt (h : t.marks[level]? = some start) : (t.cutAt level start).depth = level := by
  have hlt : level < t.marks.size := (Array.getElem?_eq_some_iff.1 h).1
  simp only [depth, cutAt, Array.size_shrink]
  omega

end Trail

end Countermodels.Sat
