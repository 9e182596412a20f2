import Countermodels.Proofs.Sat.Alike

/-! Visiting the watchers of a literal that became false. While the visit lasts, the watchers of the
literal are those that were kept and those still to come; a clause whose watcher is still to come
need not be satisfied yet. -/

namespace Countermodels.Sat

/-- What propagation leaves as it is. -/
structure Grown (b b' : Board) : Prop where
  values_size : b'.trail.values.size = b.trail.values.size
  marks : b'.trail.marks = b.trail.marks
  lits : b.trail.lits.toList <+: b'.trail.lits.toList
  reason : ∀ p ∈ b.trail.lits, b'.trail.reasonOf p.var = b.trail.reasonOf p.var
  /-- Literals only join the trail for a reason. -/
  forced : ∀ p ∈ b'.trail.lits, p ∉ b.trail.lits → b'.trail.reasonOf p.var ≠ none
  alike : Alike b.store.clauses b'.store.clauses
  given : b'.store.given = b.store.given
  learnts : b'.store.learnts = b.store.learnts
  activity : b'.store.clauses.map Clause.activity = b.store.clauses.map Clause.activity
  step : b'.store.step = b.store.step
  decay : b'.store.decay = b.store.decay

namespace Grown

variable {b b' b'' : Board}

theorem refl (b : Board) : Grown b b :=
  ⟨rfl, rfl, List.prefix_rfl, fun _ _ => rfl, fun _ h h' => absurd h h', .refl _, rfl, rfl, rfl, rfl, rfl⟩

theorem mem (h : Grown b b') {p : Lit} (hp : p ∈ b.trail.lits) : p ∈ b'.trail.lits :=
  Array.mem_toList_iff.1 (h.lits.subset (Array.mem_toList_iff.2 hp))

/-- Literals keep their places. -/
theorem getElem? (h : Grown b b') {i : Nat} {p : Lit} (hi : b.trail.lits[i]? = some p) :
    b'.trail.lits[i]? = some p := by
  obtain ⟨hlt, rfl⟩ := Array.getElem?_eq_some_iff.1 hi
  rw [← Array.getElem?_toList, List.prefix_iff_getElem?.1 h.lits i (by simpa using hlt), Array.getElem_toList]

/-- Watchers play no part in it. -/
theorem withWatchers (h : Grown b b') (ws : Array (Array Watcher)) : Grown b { b' with watchers := ws } :=
  ⟨h.values_size, h.marks, h.lits, h.reason, h.forced, h.alike, h.given, h.learnts, h.activity, h.step, h.decay⟩

theorem trans (h : Grown b b') (h' : Grown b' b'') : Grown b b'' where
  values_size := h'.values_size.trans h.values_size
  marks := h'.marks.trans h.marks
  lits := h.lits.trans h'.lits
  reason p hp := (h'.reason p (h.mem hp)).trans (h.reason p hp)
  forced p hp hn := by
    by_cases hb : p ∈ b'.trail.lits
    · rw [h'.reason p hb]
      exact h.forced p hb hn
    · exact h'.forced p hp hb
  alike := h.alike.trans h'.alike
  given := h'.given.trans h.given
  learnts := h'.learnts.trans h.learnts
  activity := h'.activity.trans h.activity
  step := h'.step.trans h.step
  decay := h'.decay.trans h.decay

end Grown

namespace Board

variable {b : Board} {l m : Lit} {w : Watcher}

theorem watch_eq (hl : l.code < b.watchers.size) :
    b.watch l w = .ok { b with watchers := b.watchers.modify l.code (·.push w) } := by
  simp [watch, hl]

theorem toList_getD_modify {ws : Array (Array Watcher)} {f : Array Watcher → Array Watcher} {k : Nat}
    (hk : k < ws.size) (l : Lit) :
    ((ws.modify k f).getD l.code #[]).toList =
      if l.code = k then (f ws[k]).toList else (ws.getD l.code #[]).toList := by
  rw [Array.getD_eq_getD_getElem?, Array.getElem?_modify, Array.getD_eq_getD_getElem?]
  by_cases h : l.code = k
  · subst h
    simp [hk]
  · rw [if_neg (Ne.symm h), if_neg h]

theorem code_inj {l m : Lit} : l.code = m.code ↔ l = m :=
  ⟨fun h => by cases l; cases m; exact congrArg Lit.mk h, fun h => h ▸ rfl⟩

theorem watchersOf_watch (hm : m.code < b.watchers.size) :
    ({ b with watchers := b.watchers.modify m.code (·.push w) } : Board).watchersOf l =
      if l = m then b.watchersOf m ++ [w] else b.watchersOf l := by
  rw [watchersOf, toList_getD_modify hm]
  simp only [code_inj, watchersOf, Array.toList_push, Array.getD_eq_getD_getElem?,
    Array.getElem?_eq_getElem hm, Option.getD_some]

theorem seek_gives {t : Trail} {lits : Array Lit} (hl : ∀ l ∈ lits, l.var < t.values.size) (k : Nat) :
    Gives (seek t lits k) fun r => match r with
      | some (j, m) => k ≤ j ∧ lits[j]? = some m ∧ t.valueOf m ≠ .fails
      | none => ∀ (j : Nat) (m : Lit), k ≤ j → lits[j]? = some m → t.valueOf m = .fails := by
  induction k using seek.induct lits with
  | case1 k hk ih =>
    rw [seek, dif_pos hk]
    refine Gives.bind (P := fun v => v = t.valueOf lits[k])
      ⟨_, Trail.value_eq (hl _ (Array.getElem_mem hk)), rfl⟩ ?_
    rintro _ rfl
    split
    · next hv =>
      refine ih.imp fun r hr => ?_
      cases r with
      | some r =>
        obtain ⟨hj, hm⟩ := hr
        exact ⟨by omega, hm⟩
      | none =>
        intro j m hj hm
        rcases Nat.eq_or_lt_of_le hj with rfl | hj
        · rw [Array.getElem?_eq_getElem hk] at hm
          exact Option.some.inj hm ▸ hv
        · exact hr j m hj hm
    · next hv => exact .pure ⟨Nat.le_refl k, Array.getElem?_eq_getElem hk, hv⟩
  | case2 k hk =>
    rw [seek, dif_neg hk]
    refine .ok fun j m hj hm => ?_
    have := (Array.getElem?_eq_some_iff.1 hm).1
    omega

/-- The literals of a clause with the first two exchanged on a condition. -/
def turnedLits (lits : Array Lit) (turned : Bool) : Array Lit :=
  if turned then lits.swapIfInBounds 0 1 else lits

theorem swapIfInBounds_perm (lits : Array Lit) (i j : Nat) :
    (lits.swapIfInBounds i j).toList.Perm lits.toList := by
  rw [Array.swapIfInBounds_def]
  split
  · next hi =>
    split
    · next hj => exact Array.perm_iff_toList_perm.1 (Array.swap_perm hi hj)
    · exact .refl _
  · exact .refl _

theorem turnedLits_perm (lits : Array Lit) (turned : Bool) :
    (turnedLits lits turned).toList.Perm lits.toList := by
  rw [turnedLits]
  split
  · exact swapIfInBounds_perm ..
  · exact .refl _

/-- A watched literal is brought to the second place. -/
theorem orient_gives {lits : Array Lit} (h2 : 2 ≤ lits.size)
    (hw : lits[0]? = some l ∨ lits[1]? = some l) :
    ∃ first turned, orient lits l = .ok (first, turned) ∧
      (turnedLits lits turned)[0]? = some first ∧ (turnedLits lits turned)[1]? = some l ∧
      (∀ k, 2 ≤ k → (turnedLits lits turned)[k]? = lits[k]?) ∧
      (lits[0]? = some first ∧ lits[1]? = some l ∨ lits[0]? = some l ∧ lits[1]? = some first) := by
  have h0 : 0 < lits.size := by omega
  have h1 : 1 < lits.size := by omega
  rw [Array.getElem?_eq_getElem h0, Array.getElem?_eq_getElem h1] at hw
  by_cases hl : lits[0] = l
  · refine ⟨lits[1], true, ?_, ?_, ?_, fun k hk => ?_, ?_⟩
    · simp [orient, Table.read_of_lt h0, Table.read_of_lt h1, hl, bind, Except.bind, pure, Except.pure]
    · simp [turnedLits, Array.swapIfInBounds_def, h0, h1]
    · simp [turnedLits, Array.swapIfInBounds_def, h0, h1, hl]
    · have h0k : ¬ 0 = k := by omega
      have h1k : ¬ 1 = k := by omega
      simp [turnedLits, Array.swapIfInBounds_def, h0, h1, Array.getElem?_swap, h0k, h1k]
    · exact .inr (by simp [h0, h1, hl])
  · have hl1 : lits[1] = l := by simpa [hl] using hw
    refine ⟨lits[0], false, ?_, ?_, ?_, fun k hk => rfl, ?_⟩
    · simp [orient, Table.read_of_lt h0, Table.read_of_lt h1, hl, hl1, bind, Except.bind, pure, Except.pure]
    · simp [turnedLits, h0]
    · simp [turnedLits, h1, hl1]
    · exact .inl (by simp [h0, h1, hl1])

end Board

namespace Board

/-- The board with another table of clauses. -/
def withClauses (b : Board) (cs : Array Clause) : Board := { b with store := { b.store with clauses := cs } }

/-- The board with one more literal on the trail. -/
def pushed (b : Board) (p : Lit) (r : Option Nat) : Board := { b with trail := b.trail.pushed p r }

theorem size_values_pushed {b : Board} {p : Lit} {r : Option Nat} :
    (b.pushed p r).trail.values.size = b.trail.values.size := by simp [pushed, Trail.pushed]

theorem assign_eq {b : Board} {p : Lit} {r : Option Nat} (hp : p.var < b.trail.values.size)
    (hf : b.trail.valueOf p = .free) : b.assign p r = .ok (b.pushed p r) := by
  rw [assign, Trail.assign_eq hp hf]
  rfl

theorem swap_eq {b : Board} {id : Nat} {c : Clause} (hc : b.store.clauses[id]? = some c) (i k : Nat) :
    ∃ ds, b.swap id i k = b.withClauses ds ∧
      ds[id]? = some { c with lits := c.lits.swapIfInBounds i k } ∧
      ∀ j, j ≠ id → ds[j]? = b.store.clauses[j]? := by
  refine ⟨_, rfl, ?_, fun j hj => ?_⟩
  · rw [Array.getElem?_modify, if_pos rfl, hc]
    rfl
  · rw [Array.getElem?_modify, if_neg (Ne.symm hj)]

theorem turn_eq {b : Board} {id : Nat} {c : Clause} (hc : b.store.clauses[id]? = some c) (turned : Bool) :
    ∃ ds, b.turn id turned = b.withClauses ds ∧
      ds[id]? = some { c with lits := turnedLits c.lits turned } ∧
      ∀ j, j ≠ id → ds[j]? = b.store.clauses[j]? := by
  cases turned with
  | true => exact swap_eq hc 0 1
  | false => exact ⟨b.store.clauses, rfl, hc, fun _ _ => rfl⟩

/-- A board whose clauses are reordered has grown, by nothing. -/
theorem grown_withClauses {b : Board} {id : Nat} {c : Clause} {lits : Array Lit} {ds : Array Clause}
    (hc : b.store.clauses[id]? = some c) (hd : ds[id]? = some { c with lits })
    (hperm : lits.toList.Perm c.lits.toList) (hother : ∀ j, j ≠ id → ds[j]? = b.store.clauses[j]?) :
    Grown b (b.withClauses ds) where
  values_size := rfl
  marks := rfl
  lits := List.prefix_rfl
  reason _ _ := rfl
  forced _ hp hn := absurd hp hn
  alike := Alike.update hc hd ⟨rfl, rfl, hperm⟩ hother
  given := rfl
  learnts := rfl
  activity := by
    refine Array.ext_getElem? fun j => ?_
    rw [Array.getElem?_map, Array.getElem?_map]
    by_cases hj : j = id
    · subst hj
      rw [hc, withClauses, hd]
      rfl
    · rw [withClauses, hother j hj]
  step := rfl
  decay := rfl

theorem grown_finish (b : Board) : Grown b { b with trail := b.trail.finish } :=
  ⟨rfl, rfl, List.prefix_rfl, fun _ _ => rfl, fun _ h h' => absurd h h', .refl _, rfl, rfl, rfl, rfl, rfl⟩

theorem grown_pushed {b : Board} {p : Lit} {id : Nat} (ht : b.trail.Valid) (hp : p.var < b.trail.values.size)
    (hf : b.trail.valueOf p = .free) : Grown b (b.pushed p (some id)) where
  values_size := size_values_pushed
  marks := rfl
  lits := by simp [pushed, Trail.pushed]
  reason q hq := ht.reasonOf_pushed_of_mem hp hf hq
  forced q hq hn := by
    obtain rfl := (Array.mem_push.1 hq).resolve_left hn
    rw [pushed, Trail.reasonOf_pushed (ht.origins_size ▸ hp), if_pos rfl]
    exact Option.some_ne_none _
  alike := .refl _
  given := rfl
  learnts := rfl
  activity := rfl
  step := rfl
  decay := rfl

end Board

open Board

/-- What holds while the watchers `ws` of a false literal `l` are still to be visited. -/
structure Visiting (Φ : List (List Lit)) (l : Lit) (ws : List Watcher) (kept : Array Watcher)
    (b : Board) : Prop where
  shaped : Shaped b.trail b.store.clauses
  sound : Sound Φ b.trail b.store.clauses
  table_size : b.watchers.size = 2 * b.trail.values.size
  listed : Listed b.store
  empty : b.watchersOf l = []
  watched : Watched b.store.clauses b.trail.values.size
    (Function.update b.watchersOf l (kept.toList ++ ws))
  settled : ∀ id c, Live b.store.clauses id c → ∀ m, c.Watches m → (m = l → ∀ w ∈ ws, w.clause ≠ id) →
    ∀ i < b.trail.head, b.trail.lits[i]? = some m.neg → Covers b.trail c m
  fails : l.neg ∈ b.trail.lits
  level : b.trail.levelOf l.var = b.trail.depth

/-- A watcher gets another blocker. -/
theorem Watched.replace {cs : Array Clause} {n : Nat} {W : Lit → List Watcher} {l : Lit} {w w' : Watcher}
    {xs ys : List Watcher} (h : Watched cs n W) (hl : W l = xs ++ w :: ys) (hclause : w'.clause = w.clause)
    (hknown : w'.blocker.var < n) (hblocker : ∀ c, Live cs w.clause c → w'.blocker ∈ c.lits) :
    Watched cs n (Function.update W l (xs ++ w' :: ys)) := by
  have hwl : w ∈ W l := by simp [hl]
  have hmem : ∀ m, ∀ x ∈ Function.update W l (xs ++ w' :: ys) m, x = w' ∨ x ∈ W m := fun m x hx => by
    by_cases hm : m = l
    · subst hm
      simp only [Function.update_self, List.mem_append, List.mem_cons, hl] at hx ⊢
      tauto
    · rw [Function.update_of_ne hm] at hx
      exact .inr hx
  refine ⟨fun m x hx => ?_, fun m x hx => ?_, fun m x hx d hd => ?_, fun id d hd m => ?_⟩
  · rcases hmem m x hx with rfl | hx
    · rw [hclause]
      exact h.clause_lt l w hwl
    · exact h.clause_lt m x hx
  · rcases hmem m x hx with rfl | hx
    · exact hknown
    · exact h.blocker_lt m x hx
  · rcases hmem m x hx with rfl | hx
    · exact hblocker d (hclause ▸ hd)
    · exact h.blocker_mem m x hx d hd
  · rw [← h.count id d hd m]
    by_cases hm : m = l
    · subst hm
      simp [List.countP_append, List.countP_cons, hclause, hl]
    · rw [Function.update_of_ne hm]

/-- A watcher of `l` becomes one of `m`, when its clause is watched by `m` in place of `l`. -/
theorem Watched.move {cs ds : Array Clause} {n : Nat} {W : Lit → List Watcher} {l m first : Lit} {w : Watcher}
    {xs ys : List Watcher} {c d : Clause} (h : Watched cs n W) (hl : W l = xs ++ w :: ys)
    (hc : Live cs w.clause c) (hd : ds[w.clause]? = some d) (hcd : c.Alike d)
    (hother : ∀ j, j ≠ w.clause → ds[j]? = cs[j]?)
    (hold : ∀ q, c.Watches q ↔ q = first ∨ q = l) (hnew : ∀ q, d.Watches q ↔ q = first ∨ q = m)
    (hml : m ≠ l) (hlf : l ≠ first) (hmf : m ≠ first) (hfirst : first ∈ c.lits) (hn : first.var < n) :
    Watched ds n (Function.update (Function.update W l (xs ++ ys)) m (W m ++ [⟨w.clause, first⟩])) := by
  have ha : Alike cs ds := Alike.update hc.1 hd hcd hother
  have hwl : w ∈ W l := by simp [hl]
  have hmem : ∀ q, ∀ x ∈ Function.update (Function.update W l (xs ++ ys)) m (W m ++ [⟨w.clause, first⟩]) q,
      x = ⟨w.clause, first⟩ ∨ x ∈ W q := fun q x hx => by
    by_cases hqm : q = m
    · subst hqm
      simpa [or_comm] using hx
    · rw [Function.update_of_ne hqm] at hx
      by_cases hql : q = l
      · subst hql
        simp only [Function.update_self, List.mem_append, hl, List.mem_cons] at hx ⊢
        tauto
      · rw [Function.update_of_ne hql] at hx
        exact .inr hx
  refine ⟨fun q x hx => ?_, fun q x hx => ?_, fun q x hx e he => ?_, fun j e he q => ?_⟩
  · rw [ha.size_eq]
    rcases hmem q x hx with rfl | hx
    · exact h.clause_lt l w hwl
    · exact h.clause_lt q x hx
  · rcases hmem q x hx with rfl | hx
    · exact hn
    · exact h.blocker_lt q x hx
  · obtain ⟨e', he', hee⟩ := ha.live he
    refine hee.mem_iff.2 ?_
    rcases hmem q x hx with rfl | hx
    · exact he'.unique hc ▸ hfirst
    · exact h.blocker_mem q x hx e' he'
  · by_cases hj : j = w.clause
    · -- the clause of the watcher: `l` loses one, `m` gains one
      subst hj
      obtain rfl : e = d := Option.some.inj (he.1.symm.trans hd)
      have hcount := h.count w.clause c hc
      by_cases hqm : q = m
      · subst hqm
        have hq := hcount q
        rw [if_neg (by simp [hold, hmf, hml])] at hq
        simp [List.countP_append, hq, hnew]
      · rw [Function.update_of_ne hqm]
        by_cases hql : q = l
        · subst hql
          have hq := hcount q
          rw [if_pos (by simp [hold]), hl] at hq
          simp only [List.countP_append, List.countP_cons, decide_true, ↓reduceIte] at hq
          rw [Function.update_self, if_neg (by simp [hnew, hlf, hqm]), List.countP_append]
          omega
        · rw [Function.update_of_ne hql, hcount q]
          simp only [hold, hnew, hql, hqm, or_false]
    · have he' : Live cs j e := ⟨hother j hj ▸ he.1, he.2⟩
      rw [← h.count j e he' q]
      by_cases hqm : q = m
      · subst hqm
        simp [List.countP_append, Ne.symm hj]
      · rw [Function.update_of_ne hqm]
        by_cases hql : q = l
        · subst hql
          simp [List.countP_append, hl, Ne.symm hj]
        · rw [Function.update_of_ne hql]

namespace Visiting

variable {Φ : List (List Lit)} {l p : Lit} {w w' : Watcher} {ws : List Watcher} {kept : Array Watcher}
  {b : Board} {c : Clause}

theorem mem_update :
    w ∈ Function.update b.watchersOf l (kept.toList ++ w :: ws) l := by simp

/-- The clause of a watcher of `l` is watched by `l`. -/
theorem watches (h : Visiting Φ l (w :: ws) kept b) (hc : Live b.store.clauses w.clause c) : c.Watches l := by
  have hcount := h.watched.count w.clause c hc l
  by_contra hn
  rw [if_neg hn] at hcount
  exact List.countP_eq_zero.1 hcount w mem_update (decide_eq_true rfl)

/-- A true literal of the clause covers `l`, which is of the current level. -/
theorem covers (h : Visiting Φ l ws kept b) (hp : p ∈ c.lits) (ht : p ∈ b.trail.lits) : Covers b.trail c l :=
  ⟨p, hp, ht, h.level ▸ h.shaped.trail.level_le_depth ht⟩

/-- Keep the next watcher, perhaps with another blocker, when its clause is satisfied. -/
theorem keep (h : Visiting Φ l (w :: ws) kept b) (hclause : w'.clause = w.clause)
    (hknown : w'.blocker.var < b.trail.values.size)
    (hblocker : ∀ c, Live b.store.clauses w.clause c → w'.blocker ∈ c.lits)
    (hcov : ∀ c, Live b.store.clauses w.clause c → Covers b.trail c l) :
    Visiting Φ l ws (kept.push w') b where
  shaped := h.shaped
  sound := h.sound
  table_size := h.table_size
  listed := h.listed
  empty := h.empty
  watched := by
    have := h.watched.replace (Function.update_self ..) hclause hknown hblocker
    simpa [Function.update_idem] using this
  settled id d hd m hm hws i hi hlit := by
    by_cases hid : m = l ∧ w.clause = id
    · obtain ⟨rfl, rfl⟩ := hid
      exact hcov d hd
    · refine h.settled id d hd m hm (fun hml x hx => ?_) i hi hlit
      rcases List.mem_cons.1 hx with rfl | hx
      · exact fun he => hid ⟨hml, he⟩
      · exact hws hml x hx
  fails := h.fails
  level := h.level

/-- Drop the watcher of a deleted clause. -/
theorem drop (h : Visiting Φ l (w :: ws) kept b) (hdel : ∀ c, ¬ Live b.store.clauses w.clause c) :
    Visiting Φ l ws kept b where
  shaped := h.shaped
  sound := h.sound
  table_size := h.table_size
  listed := h.listed
  empty := h.empty
  watched := by
    have hmem : ∀ m, ∀ x ∈ Function.update b.watchersOf l (kept.toList ++ ws) m,
        x ∈ Function.update b.watchersOf l (kept.toList ++ w :: ws) m := fun m x hx => by
      by_cases hm : m = l
      · subst hm
        simp only [Function.update_self, List.mem_append, List.mem_cons] at hx ⊢
        tauto
      · simpa [Function.update_of_ne hm] using hx
    refine ⟨fun m x hx => h.watched.clause_lt m x (hmem m x hx),
      fun m x hx => h.watched.blocker_lt m x (hmem m x hx),
      fun m x hx => h.watched.blocker_mem m x (hmem m x hx), fun id d hd m => ?_⟩
    rw [← h.watched.count id d hd m]
    by_cases hm : m = l
    · subst hm
      have hne : w.clause ≠ id := fun he => hdel d (he ▸ hd)
      simp [List.countP_append, hne]
    · simp [Function.update_of_ne hm]
  settled id d hd m hm hws := h.settled id d hd m hm fun hml x hx => by
    rcases List.mem_cons.1 hx with rfl | hx
    · exact fun he => hdel d (he ▸ hd)
    · exact hws hml x hx
  fails := h.fails
  level := h.level

/-- Put the literals of a clause in another order that keeps the watched ones. -/
theorem reorder (h : Visiting Φ l ws kept b) {id : Nat} {lits : Array Lit} {ds : Array Clause}
    (hc : Live b.store.clauses id c) (hd : ds[id]? = some { c with lits })
    (hperm : lits.toList.Perm c.lits.toList) (hother : ∀ j, j ≠ id → ds[j]? = b.store.clauses[j]?)
    (hfirst : ∀ p ∈ b.trail.lits, c.lits[0]? = some p → lits[0]? = some p)
    (hwatch : ∀ m, ({ c with lits } : Clause).Watches m ↔ c.Watches m) :
    Visiting Φ l ws kept (b.withClauses ds) := by
  have ha : Alike b.store.clauses ds := (grown_withClauses hc.1 hd hperm hother).alike
  have hcase : ∀ j e f, Live b.store.clauses j e → Live ds j f →
      e = f ∨ (e = c ∧ f = { c with lits }) := fun j e f he hf => by
    by_cases hj : j = id
    · subst hj
      exact .inr ⟨he.unique hc, Option.some.inj (hf.1.symm.trans hd)⟩
    · have := hf.1
      rw [hother j hj] at this
      exact .inl (Option.some.inj (he.1.symm.trans this))
  have hwatches : ∀ j e f, Live b.store.clauses j e → Live ds j f → ∀ m, f.Watches m ↔ e.Watches m :=
    fun j e f he hf m => by
      rcases hcase j e f he hf with rfl | ⟨rfl, rfl⟩
      · exact Iff.rfl
      · exact hwatch m
  refine ⟨h.shaped.alike ha fun j e f he hf p hp h0 => ?_, h.sound.alike ha, h.table_size,
    h.listed.alike ha rfl rfl, h.empty, h.watched.alike ha hwatches, fun j f hf m hm hws i hi hlit => ?_,
    h.fails, h.level⟩
  · rcases hcase j e f he hf with rfl | ⟨rfl, rfl⟩
    · exact h0
    · exact hfirst p hp h0
  · obtain ⟨e, he, hef⟩ := ha.live hf
    exact hef.covers (h.settled j e he m ((hwatches j e f he hf m).1 hm) hws i hi hlit)

/-- Bring `l` to the second place of the clause of the next watcher. -/
theorem turn (h : Visiting Φ l (w :: ws) kept b) (hc : Live b.store.clauses w.clause c) :
    ∃ first turned ds c', orient c.lits l = .ok (first, turned) ∧
      b.turn w.clause turned = b.withClauses ds ∧ Live ds w.clause c' ∧
      c'.lits[0]? = some first ∧ c'.lits[1]? = some l ∧ (∀ k, 2 ≤ k → c'.lits[k]? = c.lits[k]?) ∧
      Visiting Φ l (w :: ws) kept (b.withClauses ds) ∧ Grown b (b.withClauses ds) := by
  obtain ⟨first, turned, horient, h0, h1, hk, hwas⟩ := orient_gives (h.shaped.two_le _ c hc) (h.watches hc)
  obtain ⟨ds, hturn, hd, hother⟩ := turn_eq hc.1 turned
  have hperm := turnedLits_perm c.lits turned
  refine ⟨first, turned, ds, _, horient, hturn, ⟨hd, hc.2⟩, h0, h1, hk, ?_,
    grown_withClauses hc.1 hd hperm hother⟩
  refine h.reorder hc hd hperm hother (fun p hp hp0 => ?_) fun m => ?_
  · rcases hwas with ⟨hf, -⟩ | ⟨hl, -⟩
    · exact h0.trans (hf.symm.trans hp0)
    · obtain rfl := Option.some.inj (hp0.symm.trans hl)
      exact absurd h.fails (h.shaped.trail.not_mem_neg hp)
  · simp only [Clause.Watches, h0, h1]
    rcases hwas with ⟨hf, hl⟩ | ⟨hl, hf⟩
    · rw [hf, hl]
    · rw [hf, hl, or_comm]

/-- Make a literal true for a reason whose other literals are false. -/
theorem assign (h : Visiting Φ l ws kept b) {id : Nat} (hp : p.var < b.trail.values.size)
    (hf : b.trail.valueOf p = .free) (hc : Live b.store.clauses id c) (h0 : c.lits[0]? = some p)
    (hrest : ∀ q ∈ c.lits, q ≠ p → q.neg ∈ b.trail.lits) : Visiting Φ l ws kept (b.pushed p (some id)) where
  shaped := h.shaped.pushed hp hf (fun _ hid => by obtain rfl := Option.some.inj hid; exact ⟨c, hc, h0, hrest⟩)
    (by simp)
  sound := h.sound.pushed hp hf h.shaped.trail fun hd => h.sound.unit_entailed hc fun q hq hne => by
    have hn := hrest q hq hne
    have := h.shaped.trail.level_le_depth hn
    rw [hd, Lit.var_neg] at this
    exact ⟨hn, Nat.le_zero.1 this⟩
  table_size := by rw [size_values_pushed]; exact h.table_size
  listed := h.listed
  empty := h.empty
  watched := by rw [size_values_pushed]; exact h.watched
  settled id d hd m hm hws i hi hlit := by
    have hi' : i < b.trail.lits.size := Nat.lt_of_lt_of_le hi h.shaped.trail.head_le
    have hlit : b.trail.lits[i]? = some m.neg := by
      simpa [Board.pushed, Trail.pushed, Array.getElem?_push, show i ≠ b.trail.lits.size by omega] using hlit
    exact (h.settled id d hd m hm hws i hi hlit).pushed hp hf h.shaped.trail (Array.mem_of_getElem? hlit)
  fails := Array.mem_push.2 (.inl h.fails)
  level := by
    have := h.shaped.trail.levelOf_pushed_of_mem (r := some id) hp hf h.fails
    rw [Lit.var_neg] at this
    exact this.trans h.level

/-- Let a clause be watched by a literal `m` that is not false in place of `l`, which stands second. -/
theorem move (h : Visiting Φ l (w :: ws) kept b) {first m : Lit} {k : Nat} {ds : Array Clause}
    (hc : Live b.store.clauses w.clause c) (h0 : c.lits[0]? = some first) (h1 : c.lits[1]? = some l)
    (hk : 2 ≤ k) (hm : c.lits[k]? = some m) (hmv : b.trail.valueOf m ≠ .fails)
    (hd : ds[w.clause]? = some { c with lits := c.lits.swapIfInBounds 1 k })
    (hother : ∀ j, j ≠ w.clause → ds[j]? = b.store.clauses[j]?) :
    Visiting Φ l ws kept
      { b.withClauses ds with watchers := b.watchers.modify m.code (·.push ⟨w.clause, first⟩) } := by
  have hnd := h.shaped.nodup _ c hc
  have hplace : ∀ (i j : Nat) (q : Lit), c.lits[i]? = some q → c.lits[j]? = some q → i = j := fun i j q hi hj => by
    have hil := (Array.getElem?_eq_some_iff.1 hi).1
    refine (List.getElem?_inj (by simpa using hil) hnd).1 ?_
    simp [hi, hj]
  have hml : m ≠ l := fun he => hmv (he ▸ h.shaped.trail.fails_iff.2 h.fails)
  have hlf : l ≠ first := fun he => absurd (hplace 0 1 l (he ▸ h0) h1) (by omega)
  have hmf : m ≠ first := fun he => absurd (hplace 0 k first h0 (he ▸ hm)) (by omega)
  have hk' : k < c.lits.size := (Array.getElem?_eq_some_iff.1 hm).1
  have hmem : m ∈ c.lits := Array.mem_of_getElem? hm
  have hmn : m.var < b.trail.values.size := h.shaped.known _ c hc m hmem
  have hmcode : m.code < b.watchers.size := h.table_size ▸ Lit.code_lt_iff.2 hmn
  have hperm := swapIfInBounds_perm c.lits 1 k
  have hcd : c.Alike { c with lits := c.lits.swapIfInBounds 1 k } := ⟨rfl, rfl, hperm⟩
  have ha : Alike b.store.clauses ds := Alike.update hc.1 hd hcd hother
  -- the clause is now watched by its first literal and by `m`
  have e0 : (c.lits.swapIfInBounds 1 k)[0]? = some first := by
    rw [Array.swapIfInBounds_def, dif_pos (by omega), dif_pos hk', Array.getElem?_swap, if_neg (by omega),
      if_neg (by omega), h0]
  have e1 : (c.lits.swapIfInBounds 1 k)[1]? = some m := by
    rw [Array.swapIfInBounds_def, dif_pos (by omega), dif_pos hk', Array.getElem?_swap]
    split
    · omega
    · rw [if_pos rfl, ← Array.getElem?_eq_getElem hk', hm]
  have hnew : ∀ q, ({ c with lits := c.lits.swapIfInBounds 1 k } : Clause).Watches q ↔ q = first ∨ q = m := fun q => by
    simp only [Clause.Watches, e0, e1, Option.some.injEq, eq_comm]
  have hold : ∀ q, c.Watches q ↔ q = first ∨ q = l := fun q => by
    simp only [Clause.Watches, h0, h1, Option.some.injEq, eq_comm]
  have hcase : ∀ j e, Live ds j e → (j ≠ w.clause ∧ Live b.store.clauses j e) ∨
      (j = w.clause ∧ e = { c with lits := c.lits.swapIfInBounds 1 k }) := fun j e he => by
    by_cases hj : j = w.clause
    · exact .inr ⟨hj, Option.some.inj ((hj ▸ he.1).symm.trans hd)⟩
    · exact .inl ⟨hj, (hother j hj) ▸ he.1, he.2⟩
  have hfirst : first ∈ c.lits := Array.mem_of_getElem? h0
  have hwatchers : ∀ q, ({ b.withClauses ds with
      watchers := b.watchers.modify m.code (·.push ⟨w.clause, first⟩) } : Board).watchersOf q =
      if q = m then b.watchersOf m ++ [⟨w.clause, first⟩] else b.watchersOf q := fun q =>
    watchersOf_watch hmcode
  refine ⟨h.shaped.alike ha fun j e f he hf p hp hp0 => ?_, h.sound.alike ha, ?_,
    h.listed.alike ha rfl rfl, ?_, ?_, fun j e he q hq hws i hi hlit => ?_, h.fails, h.level⟩
  · rcases hcase j f hf with ⟨hj, hf⟩ | ⟨rfl, rfl⟩
    · exact he.unique hf ▸ hp0
    · obtain rfl := he.unique hc
      rw [h0] at hp0
      obtain rfl := Option.some.inj hp0
      exact e0
  · simpa [withClauses] using h.table_size
  · rw [hwatchers, if_neg hml.symm]
    exact h.empty
  · have hmove := h.watched.move (Function.update_self ..) hc hd hcd hother hold hnew hml hlf hmf hfirst
      (h.shaped.known _ c hc first hfirst)
    refine cast (congrArg (Watched ds b.trail.values.size) (funext fun q => ?_)) hmove
    by_cases hqm : q = m
    · subst hqm
      simp [Function.update_of_ne hml, hwatchers]
    · by_cases hql : q = l
      · subst hql
        simp [Function.update_of_ne hqm]
      · simp [Function.update_of_ne hql, hwatchers, hqm]
  · rcases hcase j e he with ⟨hj, he'⟩ | ⟨rfl, rfl⟩
    · refine h.settled j e he' q hq (fun hql x hx => ?_) i hi hlit
      rcases List.mem_cons.1 hx with rfl | hx
      · exact Ne.symm hj
      · exact hws hql x hx
    · have hcov : q = first → Covers b.trail c q := fun hqf =>
        h.settled w.clause c hc q ((hold q).2 (.inl hqf)) (fun hql => absurd (hql ▸ hqf) hlf) i hi hlit
      rcases (hnew q).1 hq with hqf | rfl
      · exact hcd.covers (hcov hqf)
      · exact absurd (h.shaped.trail.fails_iff.2 (Array.mem_of_getElem? hlit)) hmv

end Visiting

end Countermodels.Sat
