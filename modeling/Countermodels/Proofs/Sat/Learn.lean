import Countermodels.Proofs.Sat.Minimize
import Countermodels.Sat.Search

/-! Learning from a conflict. The learnt clause follows from the given clauses, all its literals are
false, and its first is the only one of the current level; after going back to the highest level of the
others, it makes its first literal true. -/

namespace Countermodels.Sat

open ClauseStore

/-- A clause that forces its first literal once the levels above `level` are undone. -/
structure Asserting (Φ : List (List Lit)) (t : Trail) (r : Learnt) : Prop where
  entailed : Entails Φ r.lits.toList
  distinct : (r.lits.toList.map Lit.var).Nodup
  fails : ∀ q ∈ r.lits, q.neg ∈ t.lits
  first : ∃ u, r.lits[0]? = some u ∧ t.levelOf u.var = t.depth
  lower : ∀ (i : Nat) (q : Lit), 0 < i → r.lits[i]? = some q → 0 < t.levelOf q.var ∧ t.levelOf q.var ≤ r.level
  second : ∀ q, r.lits[1]? = some q → t.levelOf q.var = r.level
  unit : r.lits.size = 1 → r.level = 0
  level_lt : r.level < t.depth

variable {Φ : List (List Lit)} {t : Trail}

theorem Analysis.deepest_gives (ht : t.Valid) {ls : List Lit} (hls : ∀ l ∈ ls, l.neg ∈ t.lits) (i : Nat)
    (best : Nat × Nat) :
    Gives (deepest t ls i best) fun r => r = best ∧ (∀ l ∈ ls, t.levelOf l.var < best.2) ∨
      ∃ (k : Nat) (l : Lit), ls[k]? = some l ∧ r = (i + k, t.levelOf l.var) ∧ best.2 ≤ t.levelOf l.var ∧
        ∀ m ∈ ls, t.levelOf m.var ≤ t.levelOf l.var := by
  induction ls generalizing i best with
  | nil => exact .ok (.inl ⟨rfl, by simp⟩)
  | cons l ls ih =>
    have hlo : l.var < t.origins.size := by simpa [ht.origins_size] using ht.known (hls l List.mem_cons_self)
    rw [deepest, Trail.level_eq_ok hlo, ok_bind]
    refine (ih (fun m hm => hls m (List.mem_cons_of_mem _ hm)) (i + 1) _).imp fun r hr => ?_
    split at hr
    · next hle =>
      right
      rcases hr with ⟨rfl, hall⟩ | ⟨k, m, hk, rfl, hbest, hall⟩
      · refine ⟨0, l, rfl, rfl, hle, fun p hp => ?_⟩
        rcases List.mem_cons.1 hp with rfl | hp
        · exact Nat.le_refl _
        · exact Nat.le_of_lt (hall p hp)
      · refine ⟨k + 1, m, hk, by rw [Nat.add_right_comm, Nat.add_assoc], Nat.le_trans hle hbest, fun p hp => ?_⟩
        rcases List.mem_cons.1 hp with rfl | hp
        · exact hbest
        · exact hall p hp
    · next hlt =>
      rcases hr with ⟨rfl, hall⟩ | ⟨k, m, hk, rfl, hbest, hall⟩
      · refine .inl ⟨rfl, fun p hp => ?_⟩
        rcases List.mem_cons.1 hp with rfl | hp
        · omega
        · exact hall p hp
      · refine .inr ⟨k + 1, m, hk, by rw [Nat.add_right_comm, Nat.add_assoc], hbest, fun p hp => ?_⟩
        rcases List.mem_cons.1 hp with rfl | hp
        · omega
        · exact hall p hp

theorem getElem?_swapIfInBounds_of_ne {xs : Array Lit} {i j k : Nat} (hi : k ≠ i) (hj : k ≠ j) :
    (xs.swapIfInBounds i j)[k]? = xs[k]? := by
  rw [Array.swapIfInBounds_def]
  split
  · split
    · rw [Array.getElem?_swap, if_neg (Ne.symm hj), if_neg (Ne.symm hi)]
    · rfl
  · rfl

theorem getElem?_swapIfInBounds_left {xs : Array Lit} {i j : Nat} (hi : i < xs.size) (hj : j < xs.size) :
    (xs.swapIfInBounds i j)[i]? = xs[j]? := by
  rw [Array.swapIfInBounds_def, dif_pos hi, dif_pos hj, Array.getElem?_swap]
  by_cases h : j = i
  · subst h
    simp [hj]
  · simp [h, hj]

/-- The clause of the first unique implication point, with a literal of the highest level in the second
place. -/
theorem Asserting.of_cut {p : Lit} {kept : List Lit} {place level : Nat} (hp : p ∈ t.lits)
    (hpl : t.levelOf p.var = t.depth) (hd : 0 < t.depth)
    (hk : ∀ q ∈ kept, q.neg ∈ t.lits ∧ 0 < t.levelOf q.var ∧ t.levelOf q.var < t.depth)
    (hdistinct : (kept.map Lit.var).Nodup) (hent : Entails Φ (p.neg :: kept))
    (hdeep : (place, level) = (1, 0) ∧ kept = [] ∨ ∃ (k : Nat) (l : Lit), kept[k]? = some l ∧
      (place, level) = (1 + k, t.levelOf l.var) ∧ ∀ m ∈ kept, t.levelOf m.var ≤ t.levelOf l.var) :
    Asserting Φ t ⟨(p.neg :: kept).toArray.swapIfInBounds 1 place, level⟩ := by
  have hperm : ((p.neg :: kept).toArray.swapIfInBounds 1 place).toList.Perm (p.neg :: kept) :=
    Board.swapIfInBounds_perm ..
  have hmem : ∀ q, q ∈ (p.neg :: kept).toArray.swapIfInBounds 1 place ↔ q = p.neg ∨ q ∈ kept := fun q => by
    rw [← Array.mem_toList_iff, hperm.mem_iff, List.mem_cons]
  have hne : ∀ q ∈ kept, q.var ≠ p.var := fun q hq hv => by
    have := (hk q hq).2.2
    rw [hv] at this
    omega
  have hplace : 1 ≤ place := by
    rcases hdeep with ⟨h, -⟩ | ⟨k, l, -, h, -⟩ <;> cases h <;> omega
  have hfirst : ((p.neg :: kept).toArray.swapIfInBounds 1 place)[0]? = some p.neg := by
    rw [getElem?_swapIfInBounds_of_ne (by omega) (by omega)]
    rfl
  have hvars : (((p.neg :: kept).toArray.swapIfInBounds 1 place).toList.map Lit.var).Nodup := by
    rw [(hperm.map Lit.var).nodup_iff, List.map_cons, List.nodup_cons, Lit.var_neg]
    refine ⟨fun h => ?_, hdistinct⟩
    obtain ⟨q, hq, hqv⟩ := List.mem_map.1 h
    exact hne q hq hqv
  -- a literal behind the first one is of a lower level
  have hrest : ∀ (i : Nat) (q : Lit), 0 < i → ((p.neg :: kept).toArray.swapIfInBounds 1 place)[i]? = some q →
      q ∈ kept := fun i q hi hq => by
    refine ((hmem q).1 (Array.mem_of_getElem? hq)).resolve_left fun he => ?_
    have h0 := (List.getElem?_inj (i := 0) (j := i) (by simp)
      hvars).1 (by rw [List.getElem?_map, List.getElem?_map, Array.getElem?_toList, Array.getElem?_toList, hfirst, hq, he])
    omega
  refine ⟨fun σ hσ => ?_, hvars, fun q hq => ?_, ⟨p.neg, hfirst, by simpa using hpl⟩, fun i q hi hq => ?_,
    fun q hq => ?_, fun h1 => ?_, ?_⟩
  · obtain ⟨q, hq, hqσ⟩ := Lit.anyHolds_iff.1 (hent σ hσ)
    exact Lit.anyHolds_iff.2 ⟨q, hperm.mem_iff.2 hq, hqσ⟩
  · rcases (hmem q).1 hq with rfl | hq
    · simpa using hp
    · exact (hk q hq).1
  · have hqk := hrest i q hi hq
    refine ⟨(hk q hqk).2.1, ?_⟩
    rcases hdeep with ⟨-, rfl⟩ | ⟨k, l, -, h, hmax⟩
    · exact absurd hqk (by simp)
    · cases h
      exact hmax q hqk
  · have hqk := hrest 1 q Nat.one_pos hq
    rcases hdeep with ⟨-, rfl⟩ | ⟨k, l, hkl, h, -⟩
    · exact absurd hqk (by simp)
    · cases h
      have hlen : k < kept.length := (List.getElem?_eq_some_iff.1 hkl).1
      rw [getElem?_swapIfInBounds_left (by simp; omega) (by simp; omega)] at hq
      have : (p.neg :: kept).toArray[1 + k]? = some l := by simpa [Nat.add_comm] using hkl
      rw [Option.some.inj (hq.symm.trans this)]
  · rcases hdeep with ⟨h, -⟩ | ⟨k, l, hkl, -, -⟩
    · cases h
      rfl
    · have hlen : k < kept.length := (List.getElem?_eq_some_iff.1 hkl).1
      simp at h1
      simp [h1] at hlen
  · rcases hdeep with ⟨h, -⟩ | ⟨k, l, hkl, h, -⟩
    · cases h
      exact hd
    · cases h
      exact (hk l (List.mem_of_getElem? hkl)).2.2

namespace Solver

variable {s s' : Solver} {id : Nat}

/-- The tables of a solver know all its variables, and the order holds those that are free. -/
structure Tables (s : Solver) : Prop where
  phases : s.phases.size = s.board.trail.values.size
  marks : s.marks.size = s.board.trail.values.size
  clear : ∀ v, ¬ Marked s.marks v
  order : s.order.Valid s.board.trail.values.size
  free : ∀ v, s.board.trail.values[v]? = some .free → s.order.Has v
  weighted : s.board.store.Weighted
  decay : s.board.store.decay = s.options.clauseDecay

/-- What analysis changes: activities and the heap. -/
def Rated (s s' : Solver) : Prop :=
  ∃ store order marks, Reweighed s.board.store store ∧ order.Valid s.board.trail.values.size ∧
    (∀ v, order.Has v ↔ s.order.Has v) ∧ marks.size = s.board.trail.values.size ∧ (∀ v, ¬ Marked marks v) ∧
    s' = { s with board := { s.board with store }, order, marks }

/-- The first half of an analysis, from the false clause back to the first unique implication point. -/
def cut (s : Solver) (conflict : Nat) : Except Fault (Lit × Analysis) := do
  let store ← s.board.store.bump conflict
  let clause ← Table.read store.clauses conflict
  let a ← clause.lits.toList.foldlM (Analysis.meet s.board.trail) { marks := s.marks, order := s.order, store }
  a.walk s.board.trail s.board.trail.lits.size

/-- The second half: the clause is shrunk, and its literals get their places. -/
def conclude (s : Solver) (p : Lit) (a : Analysis) : Except Fault (Learnt × Solver) := do
  let (lower, marks) ← Analysis.minimize s.options.minimization s.board.trail a.store a.lower.toList a.marks
  let (place, level) ← Analysis.deepest s.board.trail lower 1 (1, 0)
  return (⟨(p.neg :: lower).toArray.swapIfInBounds 1 place, level⟩,
    { s with board := { s.board with store := a.store }, order := a.order, marks })

theorem analyze_eq (s : Solver) (conflict : Nat) :
    s.analyze conflict = s.cut conflict >>= fun r => s.conclude r.1 r.2 := by
  simp only [analyze, cut, conclude, bind_assoc]

theorem cut_gives (hv : s.board.Valid Φ) (ht : s.Tables) (hd : 0 < s.board.trail.depth)
    (hc : Conflict s.board.trail s.board.store.clauses id) :
    Gives (s.cut id) fun r => Analysis.Cut Φ s.board.trail s.order s.board.store r.1 r.2 := by
  obtain ⟨c, hlive, hall, q₀, hq₀, hlev₀⟩ := hc
  have hid : id < s.board.store.clauses.size := (Array.getElem?_eq_some_iff.1 hlive.1).1
  unfold cut
  refine (bump_gives hid).bind fun store hstore => ?_
  obtain ⟨d, hdl, -⟩ := hstore.alike.symm.live hlive
  rw [Table.read_of_some hdl.1, ok_bind, hstore.lits_eq hlive hdl]
  have hstart : Analysis.Walking Φ s.board.trail s.order s.board.store s.board.trail.lits.size [] c.lits.toList
      { marks := s.marks, order := s.order, store } :=
    ⟨ht.order, fun _ => Iff.rfl, hstore, ht.marks, by simp, by simp, by simp, fun v => by simpa using ht.clear v, rfl,
      hv.sound.clause id c hlive⟩
  refine (Analysis.meets_gives hv.shaped.trail hv.sound hd hstart fun q hq => ?_).bind fun a ha => ?_
  · obtain ⟨j, hj⟩ := Array.mem_iff_getElem?.1 (hall q (Array.mem_toList_iff.1 hq))
    exact ⟨j, (Array.getElem?_eq_some_iff.1 hj).1, hj⟩
  · obtain ⟨os, hwalk, -, hmem⟩ := ha
    have hos : os ≠ [] := List.ne_nil_of_mem (hmem q₀ (Array.mem_toList_iff.2 hq₀) hlev₀)
    exact Analysis.walk_gives hv.shaped hv.sound hd hwalk (Nat.le_refl _) hos

/-- What comes of a walk: a clause that is asserting, made of the literals that the walk has left. -/
theorem conclude_gives {p : Lit} {a : Analysis} (hv : s.board.Valid Φ) (hd : 0 < s.board.trail.depth)
    (hcut : Analysis.Cut Φ s.board.trail s.order s.board.store p a) :
    Gives (s.conclude p a) fun r => Asserting Φ s.board.trail r.1 ∧ s.Rated r.2 ∧
      ∃ kept, r.1.lits.toList.Perm (p.neg :: kept) ∧ kept.Sublist a.lower.toList ∧
        (s.options.minimization = .none → kept = a.lower.toList) := by
  obtain ⟨hw, hp, hpl⟩ := hcut
  have hlower : ∀ q ∈ a.lower.toList, q.neg ∈ s.board.trail.lits := fun q hq => (hw.lower q hq).1
  unfold conclude
  refine (Analysis.minimize_gives hw.store hv.shaped hv.sound hlower hw.size (by simpa using hw.marked)).bind
    fun r hr => ?_
  obtain ⟨kept, marks⟩ := r
  obtain ⟨hsub, hnone, hsize, hclear, hent⟩ := hr
  refine (Analysis.deepest_gives hv.shaped.trail (fun l hl => hlower l (hsub.subset hl)) 1 (1, 0)).bind fun r hr => ?_
  obtain ⟨place, level⟩ := r
  refine .pure ⟨.of_cut hp hpl hd (fun q hq => hw.lower q (hsub.subset hq)) ?_ (fun σ hσ => ?_) ?_,
    ⟨a.store, a.order, marks, hw.store, hw.order, hw.has, hsize, hclear, rfl⟩,
    kept, Board.swapIfInBounds_perm .., hsub, hnone⟩
  · have := hw.distinct
    rw [List.append_nil] at this
    exact this.sublist (hsub.map _)
  · -- if all kept literals are false then so are all lower ones, and the first literal is left
    by_contra hno
    have hno : ∀ q ∈ p.neg :: kept, q.holds σ = false := fun q hq => by
      by_contra hqσ
      exact hno (Lit.anyHolds_iff.2 ⟨q, hq, by simpa using hqσ⟩)
    obtain ⟨q, hq, hqσ⟩ := Lit.anyHolds_iff.1 (hw.entailed σ hσ)
    rw [List.append_nil] at hq
    rcases List.mem_append.1 hq with hq | hq
    · have := hent σ hσ (fun q hq => hno q (List.mem_cons_of_mem _ hq)) q hq
      simp [hqσ] at this
    · have := hno q (List.mem_singleton.1 hq ▸ List.mem_cons_self)
      simp [hqσ] at this
  · rcases hr with ⟨he, hall⟩ | ⟨k, l, hk, he, -, hmax⟩
    · refine .inl ⟨he, List.eq_nil_iff_forall_not_mem.2 fun l hl => ?_⟩
      exact absurd (hall l hl) (Nat.not_lt_zero _)
    · exact .inr ⟨k, l, hk, he, hmax⟩

theorem analyze_gives (hv : s.board.Valid Φ) (ht : s.Tables) (hd : 0 < s.board.trail.depth)
    (hc : Conflict s.board.trail s.board.store.clauses id) :
    Gives (s.analyze id) fun r => Asserting Φ s.board.trail r.1 ∧ s.Rated r.2 := by
  rw [analyze_eq]
  refine (cut_gives hv ht hd hc).bind fun r hr => ?_
  exact (conclude_gives hv hd hr).imp fun _ h => ⟨h.1, h.2.1⟩

theorem Rated.valid (h : s.Rated s') (hv : s.board.Valid Φ) : s'.board.Valid Φ := by
  obtain ⟨store, order, marks, hstore, -, -, -, -, rfl⟩ := h
  exact hv.reweigh hstore

theorem Rated.tables (h : s.Rated s') (ht : s.Tables) : s'.Tables := by
  obtain ⟨store, order, marks, hstore, horder, hhas, hmarks, hclear, rfl⟩ := h
  exact ⟨ht.phases, hmarks, hclear, horder, fun v hf => (hhas v).2 (ht.free v hf), hstore.weighted ht.weighted,
    hstore.decay.trans ht.decay⟩

theorem Rated.trail (h : s.Rated s') : s'.board.trail = s.board.trail := by
  obtain ⟨store, order, marks, -, -, -, -, -, rfl⟩ := h
  rfl

end Solver

/-! Undoing levels. -/

section Cut

variable {cs : Array Clause} {level start k : Nat} (h : t.marks[level]? = some start)

include h

theorem Shaped.cutAt (hsh : Shaped t cs) : Shaped (t.cutAt level start) cs where
  trail := hsh.trail.cutAt h
  two_le := hsh.two_le
  nodup := hsh.nodup
  known id c hc l hl := by
    rw [Trail.size_values_cutAt]
    exact hsh.known id c hc l hl
  reason i p id hi hr := by
    rw [Trail.getElem?_lits_cutAt] at hi
    split at hi
    · next hlt =>
      obtain ⟨c, hc, hfirst, hrest⟩ := hsh.reason i p id hi hr
      refine ⟨c, hc, hfirst, fun q hq hne => ?_⟩
      obtain ⟨j, hj, hjq⟩ := hrest q hq hne
      exact ⟨j, hj, by rw [Trail.getElem?_lits_cutAt, if_pos (by omega), hjq]⟩
    · cases hi
  decision i p hi hr := by
    rw [Trail.getElem?_lits_cutAt] at hi
    split at hi
    · next hlt =>
      rw [Trail.levelAt_cutAt hsh.trail h hlt]
      refine (hsh.decision i p hi hr).imp_right fun hm => ?_
      -- a level that starts before the cut is one that stays
      obtain ⟨m, hm⟩ := Array.mem_iff_getElem?.1 hm
      have hml : m < level := by
        by_contra hge
        have h1 : t.levelAt i ≤ level := (hsh.trail.levelAt_le_iff h).2 hlt
        have h2 : ¬ t.levelAt i ≤ m := fun h => by
          have := (hsh.trail.levelAt_le_iff hm).1 h
          omega
        omega
      refine Array.mem_of_getElem? (i := m) ?_
      rw [← Array.getElem?_toList, Trail.cutAt, Array.toList_shrink, List.getElem?_take, if_pos hml,
        Array.getElem?_toList, hm]
    · cases hi

theorem Sound.cutAt (ht : t.Valid) (hs : Sound Φ t cs) : Sound Φ (t.cutAt level start) cs where
  clause := hs.clause
  root l hl := hs.root l ((Trail.mem_cutAt ht h).1 hl).1
  complete σ hroot hgiven := hs.complete σ (fun l hl h0 =>
    hroot l ((Trail.mem_cutAt ht h).2 ⟨hl, by omega⟩) h0) hgiven

theorem Settled.cutAt (ht : t.Valid) (hs : Settled t cs k) (hk : start ≤ k) :
    Settled (t.cutAt level start) cs start := fun id c hc l hl i hi hlit => by
  rw [Trail.getElem?_lits_cutAt, if_pos hi] at hlit
  obtain ⟨m, hm, hmt, hle⟩ := hs id c hc l hl i (by omega) hlit
  have hlev : t.levelOf l.var ≤ level := by
    rw [← Lit.var_neg, ht.level_eq i _ hlit]
    exact (ht.levelAt_le_iff h).2 hi
  exact ⟨m, hm, (Trail.mem_cutAt ht h).2 ⟨hmt, Nat.le_trans hle hlev⟩, hle⟩

/-- No level starts after the current one. -/
theorem Trail.Valid.start_le (ht : t.Valid) : start ≤ t.levelStart := by
  have hlt : level < t.depth := (Array.getElem?_eq_some_iff.1 h).1
  by_contra hgt
  have h1 : t.levelAt t.levelStart ≤ level := (ht.levelAt_le_iff h).2 (by omega)
  have h2 : ¬ t.levelAt t.levelStart < t.depth := fun hl => by
    have := ht.lt_levelStart_iff.2 hl
    omega
  omega

end Cut

theorem Board.Valid.cutAt {b : Board} {level start : Nat} (hb : b.Valid Φ)
    (h : b.trail.marks[level]? = some start) :
    ({ b with trail := b.trail.cutAt level start } : Board).Valid Φ where
  shaped := hb.shaped.cutAt h
  sound := hb.sound.cutAt h hb.shaped.trail
  table_size := by
    rw [Trail.size_values_cutAt]
    exact hb.table_size
  watched := by
    show Watched _ (b.trail.cutAt level start).values.size _
    rw [Trail.size_values_cutAt]
    exact hb.watched
  listed := hb.listed

namespace Solver

variable {s s' : Solver} {level start : Nat}

/-- What undoing levels changes besides the trail: phases and the order. -/
def Released (s s' : Solver) (undone : List Lit) : Prop :=
  ∃ phases order, phases.size = s.phases.size ∧ order.Valid s.board.trail.values.size ∧
    (∀ v, order.Has v ↔ s.order.Has v ∨ v ∈ undone.map Lit.var) ∧ s' = { s with phases, order }

theorem release_gives {undone : List Lit} (ho : s.order.Valid s.board.trail.values.size)
    (hu : ∀ l ∈ undone, l.var < s.board.trail.values.size) :
    Gives (undone.foldlM release s) fun s' => s.Released s' undone := by
  induction undone generalizing s with
  | nil => exact .pure ⟨s.phases, s.order, rfl, ho, by simp, rfl⟩
  | cons l ls ih =>
    rw [List.foldlM_cons, release, bind_assoc]
    refine (VarOrder.insert_gives ho (hu l List.mem_cons_self)).bind fun order horder => ?_
    refine (ih (s := { s with phases := s.phases.setIfInBounds l.var l.negated, order })
      horder.1 fun m hm => hu m (List.mem_cons_of_mem _ hm)).imp fun s' hs' => ?_
    obtain ⟨phases', order', hsize, hvalid, hhas, rfl⟩ := hs'
    refine ⟨phases', order', by simpa using hsize, hvalid, fun v => ?_, rfl⟩
    rw [hhas, horder.2, List.map_cons, List.mem_cons]
    tauto

/-- The solver after all levels above one were undone. -/
structure Undone (Φ : List (List Lit)) (s s' : Solver) (level start : Nat) : Prop where
  valid : s'.board.Valid Φ
  tables : s'.Tables
  trail : s'.board.trail = s.board.trail.cutAt level start
  same : s' = { s with board := { s.board with trail := s.board.trail.cutAt level start }
                       phases := s'.phases, order := s'.order }

theorem backtrack_eq_self (h : s.board.trail.depth ≤ level) : s.backtrack level = .ok s := by
  rw [backtrack, Trail.cancel_eq_self h]
  rfl

theorem backtrack_gives (hv : s.board.Valid Φ) (ht : s.Tables) (h : s.board.trail.marks[level]? = some start) :
    Gives (s.backtrack level) fun s' => Undone Φ s s' level start := by
  have hu : ∀ l ∈ (s.board.trail.lits.toList.drop start).reverse, l.var < s.board.trail.values.size := fun l hl =>
    hv.shaped.trail.known (Array.mem_toList_iff.1 (List.mem_of_mem_drop (List.mem_reverse.1 hl)))
  rw [backtrack, Trail.cancel_eq h, ok_bind]
  refine (release_gives (s := { s with board := { s.board with trail := s.board.trail.cutAt level start } })
    (by rw [Trail.size_values_cutAt]; exact ht.order) (fun l hl => by rw [Trail.size_values_cutAt]; exact hu l hl)).imp
    fun s' hs' => ?_
  obtain ⟨phases, order, hsize, hvalid, hhas, rfl⟩ := hs'
  rw [Trail.size_values_cutAt] at hvalid
  refine ⟨hv.cutAt h, ⟨?_, ?_, ht.clear, ?_, fun v hfree => ?_, ht.weighted, ht.decay⟩, rfl, rfl⟩
  · rw [Trail.size_values_cutAt]
    exact hsize.trans ht.phases
  · rw [Trail.size_values_cutAt]
    exact ht.marks
  · rw [Trail.size_values_cutAt]
    exact hvalid
  · -- a variable that is free now was free before, or has been undone
    refine (hhas v).2 ?_
    by_cases hmem : v ∈ ((s.board.trail.lits.toList.drop start).reverse).map Lit.var
    · exact .inr hmem
    · left
      refine ht.free v ?_
      have hlt : v < s.board.trail.values.size := by
        have := (Array.getElem?_eq_some_iff.1 hfree).1
        rwa [Trail.size_values_cutAt] at this
      have hget : (s.board.trail.cutAt level start).values.getD v .free = s.board.trail.values.getD v .free := by
        rw [Trail.cutAt, Trail.getD_free, if_neg hmem]
      rw [Array.getD_eq_getD_getElem?, hfree, Array.getD_eq_getD_getElem?, Array.getElem?_eq_getElem hlt] at hget
      rw [Array.getElem?_eq_getElem hlt]
      exact congrArg some hget.symm

end Solver

/-! Adding a learnt clause. -/

/-- A clause that makes its first literal true on a trail where all others are false. -/
structure Forcing (Φ : List (List Lit)) (t : Trail) (lits : Array Lit) (u : Lit) : Prop where
  entailed : Entails Φ lits.toList
  nodup : lits.toList.Nodup
  first : lits[0]? = some u
  known : u.var < t.values.size
  free : t.valueOf u = .free
  others : ∀ q ∈ lits, q ≠ u → q.neg ∈ t.lits
  second : ∀ q, lits[1]? = some q → t.levelOf q.var = t.depth
  unit : lits.size = 1 → t.depth = 0

theorem Asserting.forcing {r : Learnt} {start : Nat} (ht : t.Valid) (h : Asserting Φ t r)
    (hcut : t.marks[r.level]? = some start) : ∃ u, Forcing Φ (t.cutAt r.level start) r.lits u := by
  obtain ⟨u, hu, hul⟩ := h.first
  have hut : u.neg ∈ t.lits := h.fails u (Array.mem_of_getElem? hu)
  have hlow : ∀ q ∈ r.lits, q ≠ u → t.levelOf q.var ≤ r.level := fun q hq hne => by
    obtain ⟨i, hi⟩ := Array.mem_iff_getElem?.1 hq
    have hpos : 0 < i := Nat.pos_of_ne_zero fun h0 => hne (Option.some.inj ((h0 ▸ hi).symm.trans hu))
    exact (h.lower i q hpos hi).2
  have hfree : (t.cutAt r.level start).valueOf u = .free := by
    rw [(ht.cutAt hcut).free_iff, Trail.mem_cutAt ht hcut, Trail.mem_cutAt ht hcut]
    refine ⟨fun hm => ht.not_mem_neg hm.1 hut, fun hm => ?_⟩
    have := h.level_lt
    have := hm.2
    rw [Lit.var_neg] at this
    omega
  refine ⟨u, h.entailed, List.Pairwise.of_map Lit.var (fun _ _ hne he => hne (he ▸ rfl)) h.distinct, hu, ?_, hfree, fun q hq hne => ?_, fun q hq => ?_, fun h1 => ?_⟩
  · simpa using ht.known hut
  · exact (Trail.mem_cutAt ht hcut).2 ⟨h.fails q hq, by simpa using hlow q hq hne⟩
  · rw [Trail.depth_cutAt hcut]
    exact h.second q hq
  · rw [Trail.depth_cutAt hcut]
    exact h.unit h1

variable {b : Board} {lits : Array Lit} {u : Lit}

/-- What a board is like after a clause was learnt. -/
structure Learned (Φ : List (List Lit)) (b b' : Board) (u : Lit) : Prop where
  valid : b'.Valid Φ
  settled : Settled b'.trail b'.store.clauses b'.trail.head
  trail : ∃ reason, b'.trail = b.trail.pushed u reason ∧ (0 < b.trail.depth → reason ≠ none)
  weighted : b.store.Weighted → b'.store.Weighted
  decay : b'.store.decay = b.store.decay
  given : b'.store.given = b.store.given

theorem Forcing.size_pos (h : Forcing Φ t lits u) : 0 < lits.size := (Array.getElem?_eq_some_iff.1 h.first).1

theorem Forcing.of_two (h : Forcing Φ t lits u) (h1 : lits.size ≠ 1) : ∃ m, lits[1]? = some m :=
  ⟨_, Array.getElem?_eq_getElem (by have := h.size_pos; omega)⟩

/-- A board stays valid with a literal more on its trail, for given clauses that the new trail fits. -/
theorem Board.Valid.pushedFor {Ψ : List (List Lit)} (hv : b.Valid Φ) {r : Option Nat} (hu : u.var < b.trail.values.size)
    (hf : b.trail.valueOf u = .free)
    (hsome : ∀ id, r = some id → ∃ c, Live b.store.clauses id c ∧ c.lits[0]? = some u ∧
      ∀ q ∈ c.lits, q ≠ u → q.neg ∈ b.trail.lits)
    (hnone : r = none → b.trail.depth = 0 ∨ b.trail.lits.size ∈ b.trail.marks)
    (hsound : Sound Ψ (b.trail.pushed u r) b.store.clauses) : (b.pushed u r).Valid Ψ where
  shaped := hv.shaped.pushed hu hf hsome hnone
  sound := hsound
  table_size := by
    rw [Board.size_values_pushed]
    exact hv.table_size
  watched := by
    rw [Board.size_values_pushed]
    exact hv.watched
  listed := hv.listed

theorem Board.Valid.pushed (hv : b.Valid Φ) {r : Option Nat} (hu : u.var < b.trail.values.size)
    (hf : b.trail.valueOf u = .free)
    (hsome : ∀ id, r = some id → ∃ c, Live b.store.clauses id c ∧ c.lits[0]? = some u ∧
      ∀ q ∈ c.lits, q ≠ u → q.neg ∈ b.trail.lits)
    (hnone : r = none → b.trail.depth = 0 ∨ b.trail.lits.size ∈ b.trail.marks)
    (h0 : b.trail.depth = 0 → Entails Φ [u]) : (b.pushed u r).Valid Φ :=
  hv.pushedFor hu hf hsome hnone (hv.sound.pushed hu hf hv.shaped.trail h0)

/-- The new clause is satisfied where its second literal is false. -/
theorem Forcing.settled_push {cs : Array Clause} {learnt : Bool} {id : Nat} (h : Forcing Φ t lits u)
    (ht : t.Valid) (hs : Settled t cs t.head) :
    Settled (t.pushed u (some id)) (cs.push ⟨lits, learnt, false, 0.0⟩) t.head := fun j c hc l hl i hi hlit => by
  rcases live_push hc with hc | ⟨-, rfl⟩
  · exact (hs.pushed h.known h.free ht ht.head_le) j c hc l hl i hi hlit
  · have hold : l.neg ∈ t.lits := by
      have := ht.head_le
      refine Array.mem_of_getElem? (i := i) ?_
      rwa [Trail.pushed, Array.getElem?_push, if_neg (by omega)] at hlit
    rcases hl with hl | hl
    · obtain rfl := Option.some.inj (h.first.symm.trans hl)
      exact absurd hold (ht.free_iff.1 h.free).2
    · refine ⟨u, Array.mem_of_getElem? h.first, Array.mem_push_self, ?_⟩
      refine Nat.le_of_eq ?_
      rw [Trail.levelOf_pushed (ht.origins_size ▸ h.known), if_pos rfl, ← Lit.var_neg l,
        ht.levelOf_pushed_of_mem h.known h.free hold, Lit.var_neg, h.second l hl]

theorem Board.learn_gives (hv : b.Valid Φ) (hs : Settled b.trail b.store.clauses b.trail.head)
    (h : Forcing Φ b.trail lits u) : Gives (b.learn lits) fun b' => Learned Φ b b' u := by
  rw [learn, Table.read_of_some h.first, ok_bind]
  split
  · next h1 =>
    have hunit : lits.toList = [u] := by
      obtain ⟨x, hx⟩ := List.length_eq_one_iff.1 (Array.length_toList.trans h1)
      have h0 := h.first
      rw [← Array.getElem?_toList, hx] at h0
      rw [hx, Option.some.inj h0]
    rw [Board.assign_eq h.known h.free]
    refine .ok ⟨hv.pushed h.known h.free (by simp) (fun _ => .inl (h.unit h1)) (fun _ => hunit ▸ h.entailed),
      hs.pushed h.known h.free hv.shaped.trail hv.shaped.trail.head_le, ⟨none, rfl, fun hd => ?_⟩, id, rfl, rfl⟩
    have := h.unit h1
    omega
  · next h1 =>
    obtain ⟨m, hm⟩ := h.of_two h1
    have hk : ∀ q ∈ lits, q.var < b.trail.values.size := fun q hq => by
      by_cases hqu : q = u
      · exact hqu ▸ h.known
      · simpa using hv.shaped.trail.known (h.others q hq hqu)
    have hcode : ∀ q ∈ lits, q.code < b.watchers.size := fun q hq => hv.table_size ▸ Lit.code_lt_iff.2 (hk q hq)
    have hadded : (b.added lits true u m).Valid Φ :=
      hv.added h.first hm h.nodup hk (fun _ => id) h.entailed fun σ hσ _ => hσ
    have hnew : Live (b.added lits true u m).store.clauses b.store.clauses.size ⟨lits, true, false, 0.0⟩ :=
      ⟨by rw [clauses_added, Array.getElem?_push_size], rfl⟩
    rw [addClause_eq h.first hm (hcode u (Array.mem_of_getElem? h.first)) (hcode m (Array.mem_of_getElem? hm)), ok_bind]
    dsimp only
    rw [Board.bump, bind_assoc]
    refine (bump_gives (Array.getElem?_eq_some_iff.1 hnew.1).1).bind fun store hstore => ?_
    have hrated := hadded.reweigh hstore
    obtain ⟨c, hc, hclits⟩ : ∃ c, Live store.clauses b.store.clauses.size c ∧ c.lits = lits := by
      obtain ⟨c, hc, -⟩ := hstore.alike.symm.live hnew
      exact ⟨c, hc, hstore.lits_eq hnew hc⟩
    rw [pure_bind, Board.assign_eq (b := { b.added lits true u m with store }) h.known h.free]
    refine .ok ⟨hrated.pushed h.known h.free (fun id hid => ?_) (by simp) fun h0 => ?_, ?_,
      ⟨some b.store.clauses.size, rfl, fun _ => Option.some_ne_none _⟩, fun hw => hstore.weighted (hw.add lits true), hstore.decay,
      hstore.given⟩
    · obtain rfl := Option.some.inj hid
      exact ⟨c, hc, hclits ▸ h.first, fun q hq => h.others q (hclits ▸ hq)⟩
    · refine hrated.sound.unit_entailed hc fun q hq hne => ?_
      have hq := h.others q (hclits ▸ hq) hne
      have h0 : b.trail.depth = 0 := h0
      have := hv.shaped.trail.level_le_depth hq
      rw [Lit.var_neg] at this
      exact ⟨hq, by show b.trail.levelOf q.var = 0; omega⟩
    · refine Settled.reweigh (b := b.added lits true u m) ?_ hstore
      rw [clauses_added]
      exact h.settled_push hv.shaped.trail hs

namespace Solver

variable {s s' : Solver} {id : Nat}

/-- What learning leaves as it is, but for the limit, which counts the conflict. -/
structure Framed (s s' : Solver) : Prop where
  options : s'.options = s.options
  ok : s'.ok = s.ok
  budget : s'.budget = s.budget
  model : s'.model = s.model
  given : s'.board.store.given = s.board.store.given
  limit : s'.limit = (s.limit.onConflict s.options).2

/-- A solver that has learnt from a conflict: some levels are undone and one literal is new. -/
structure Advanced (Φ : List (List Lit)) (s s' : Solver) : Prop where
  valid : s'.board.Valid Φ
  tables : s'.Tables
  settled : Settled s'.board.trail s'.board.store.clauses s'.board.trail.head
  framed : s.Framed s'
  trail : ∃ (level start : Nat) (u : Lit) (reason : Option Nat), s.board.trail.marks[level]? = some start ∧
    u.var < s.board.trail.values.size ∧ (s.board.trail.cutAt level start).valueOf u = .free ∧
    s'.board.trail = (s.board.trail.cutAt level start).pushed u reason ∧ (0 < level → reason ≠ none)

/-- Tables outlive a change of the board that keeps its variables, when the order has the free ones. -/
theorem Tables.update {b : Board} {order : VarOrder} (h : s.Tables)
    (hsize : b.trail.values.size = s.board.trail.values.size) (ho : order.Valid s.board.trail.values.size)
    (hfree : ∀ v, b.trail.values[v]? = some .free → order.Has v)
    (hw : b.store.Weighted) (hd : b.store.decay = s.board.store.decay) :
    ({ s with board := b, order } : Solver).Tables where
  phases := h.phases.trans hsize.symm
  marks := h.marks.trans hsize.symm
  clear := h.clear
  order := hsize.symm ▸ ho
  free := hfree
  weighted := hw
  decay := hd.trans h.decay

theorem learn_gives (hv : s.board.Valid Φ) (ht : s.Tables)
    (hs : Settled s.board.trail s.board.store.clauses s.board.trail.levelStart) (hd : 0 < s.board.trail.depth)
    (hc : Conflict s.board.trail s.board.store.clauses id) : Gives (s.learn id) (Advanced Φ s) := by
  unfold learn
  refine (analyze_gives hv ht hd hc).bind fun r hr => ?_
  obtain ⟨learnt, s₁⟩ := r
  obtain ⟨hass, hr⟩ := hr
  have hv₁ := hr.valid hv
  have ht₁ := hr.tables ht
  obtain ⟨store, order, marks, hstore, -, -, -, -, rfl⟩ := hr
  have hlevel : learnt.level < s.board.trail.marks.size := hass.level_lt
  have hcut : s.board.trail.marks[learnt.level]? = some s.board.trail.marks[learnt.level] :=
    Array.getElem?_eq_getElem hlevel
  generalize s.board.trail.marks[learnt.level] = start at hcut
  refine (backtrack_gives hv₁ ht₁ hcut).bind fun s₂ hs₂ => ?_
  obtain ⟨hv₂, ht₂, htrail, hsame⟩ := hs₂
  obtain ⟨u, hforce⟩ := hass.forcing hv.shaped.trail hcut
  have hsettled : Settled s₂.board.trail s₂.board.store.clauses s₂.board.trail.head := by
    rw [hsame]
    exact (hs.reweigh hstore).cutAt hcut hv.shaped.trail (hv.shaped.trail.start_le hcut)
  have hforce₂ : Forcing Φ s₂.board.trail learnt.lits u := htrail ▸ hforce
  refine (Board.learn_gives hv₂ hsettled hforce₂).bind fun b hb => ?_
  obtain ⟨reason, hbt, hreason⟩ := hb.trail
  have hfade := reweighed_fade b.store
  have htables : ({ s₂ with board := b.fade, order := s₂.order.fade } : Solver).Tables :=
    ht₂.update (b := b.fade) (hbt ▸ Board.size_values_pushed (b := s₂.board)) ⟨ht₂.order.size, ht₂.order.fits⟩
      (fun v hfree => ht₂.free v (Trail.free_of_pushed (hbt ▸ hfree)).2) (hfade.weighted (hb.weighted ht₂.weighted))
      (hfade.decay.trans hb.decay)
  refine .pure ⟨hb.valid.reweigh hfade, ⟨htables.phases, htables.marks, htables.clear, htables.order, htables.free,
    htables.weighted, htables.decay⟩, hb.settled.reweigh hfade, ?_, learnt.level, start, u, reason, hcut, ?_, hforce.free,
    ?_, ?_⟩
  · have hgiven : b.store.given = s.board.store.given := by
      rw [hb.given, hsame]
      exact hstore.given
    have hlimit : s₂.limit = s.limit ∧ s₂.options = s.options := by rw [hsame]; exact ⟨rfl, rfl⟩
    refine ⟨?_, ?_, ?_, ?_, hgiven, ?_⟩
    · rw [hsame]
    · rw [hsame]
    · rw [hsame]
    · rw [hsame]
    · dsimp only
      rw [hlimit.1, hlimit.2]
  · simpa using hforce.known
  · rw [← htrail]
    exact hbt
  · intro hpos
    refine hreason ?_
    rw [htrail, Trail.depth_cutAt hcut]
    exact hpos

end Solver

end Countermodels.Sat
