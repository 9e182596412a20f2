import Countermodels.Proofs.Sat.Search

/-! Using a solver again and again. Between searches the trail is at the root level, and either the
board fits the clauses given so far or these have no model; every call keeps this, whatever it answers. -/

namespace Countermodels.Sat

open Number

variable {Φ : List (List Lit)} {A : List Lit} {b : Board} {t : Trail}

theorem Board.watchersOf_declare (n : Nat) : (b.declare n).watchersOf = b.watchersOf := by
  funext l
  rw [watchersOf, watchersOf, declare, Table.getD_grow]

theorem Board.Valid.declare (hv : b.Valid Φ) (n : Nat) : (b.declare n).Valid Φ := by
  have hsize : (b.declare n).trail.values.size = max b.trail.values.size n := Table.size_grow ..
  have hlevel : ∀ v, (b.declare n).trail.levelOf v = b.trail.levelOf v := fun _ => Trail.levelOf_declare n
  have hreason : ∀ v, (b.declare n).trail.reasonOf v = b.trail.reasonOf v := fun _ => Trail.reasonOf_declare n
  refine ⟨⟨hv.shaped.trail.declare n, hv.shaped.two_le, hv.shaped.nodup, ?_, ?_, ?_⟩, ⟨hv.sound.clause, ?_, ?_⟩, ?_,
    ⟨?_, ?_, ?_, ?_⟩, hv.listed⟩
  · intro id c hc l hl
    have := hv.shaped.known id c hc l hl
    omega
  · intro i p id hi hr
    exact hv.shaped.reason i p id hi (hreason _ ▸ hr)
  · intro i p hi hr
    exact hv.shaped.decision i p hi (hreason _ ▸ hr)
  · intro l hl h0
    exact hv.sound.root l hl (hlevel _ ▸ h0)
  · intro σ hroot
    exact hv.sound.complete σ fun l hl h0 => hroot l hl ((hlevel _).trans h0)
  · rw [hsize, Board.declare, Table.size_grow, hv.table_size]
    omega
  all_goals rw [Board.watchersOf_declare]
  · exact hv.watched.clause_lt
  · intro l w hw
    have := hv.watched.blocker_lt l w hw
    omega
  · exact hv.watched.blocker_mem
  · exact hv.watched.count

theorem Settled.declare {cs : Array Clause} {k : Nat} (hs : Settled t cs k) (n : Nat) : Settled (t.declare n) cs k :=
  fun id c hc l hl i hi hlit => by
    obtain ⟨m, hm, hmt, hle⟩ := hs id c hc l hl i hi hlit
    exact ⟨m, hm, hmt, by simpa using hle⟩

/-- A clause that follows may be added to those that were given. -/
theorem Board.Valid.given_append {c : List Lit} (hv : b.Valid Φ) (hc : Entails Φ c) : b.Valid (Φ ++ [c]) where
  shaped := hv.shaped
  sound :=
    { clause := fun id d hd => (hv.sound.clause id d hd).append
      root := fun l hl h0 => (hv.sound.root l hl h0).append
      complete := fun σ hroot hgiven => by
        have hσ := hv.sound.complete σ hroot hgiven
        exact models_append.2 ⟨hσ, models_singleton.2 (hc σ hσ)⟩ }
  table_size := hv.table_size
  watched := hv.watched
  listed := hv.listed

/-- A clause with one literal that is not false at the root level, put on the trail. -/
theorem Sound.pushed_given {cs : Array Clause} {c : List Lit} {l : Lit} (hs : Sound Φ t cs) (ht : t.Valid)
    (hl : l.var < t.values.size) (hf : t.valueOf l = .free) (h0 : t.depth = 0) (hc : l ∈ c)
    (hent : Entails (Φ ++ [c]) [l]) : Sound (Φ ++ [c]) (t.pushed l none) cs where
  clause id d hd := (hs.clause id d hd).append
  root m hm hlev := by
    rcases Array.mem_push.1 hm with hm | rfl
    · rw [ht.levelOf_pushed_of_mem hl hf hm] at hlev
      exact (hs.root m hm hlev).append
    · exact hent
  complete σ hroot hgiven := by
    have hσ := hs.complete σ (fun m hm hlev =>
      hroot m (Array.mem_push.2 (.inl hm)) ((ht.levelOf_pushed_of_mem hl hf hm).trans hlev)) hgiven
    have hlσ := hroot l Array.mem_push_self (by rw [Trail.levelOf_pushed (ht.origins_size ▸ hl), if_pos rfl, h0])
    exact models_append.2 ⟨hσ, models_singleton.2 (Lit.anyHolds_iff.2 ⟨l, hc, hlσ⟩)⟩

/-- A new clause whose watched literals are free. -/
theorem Settled.push {cs : Array Clause} {c : Clause} {k : Nat} (hs : Settled t cs k)
    (hc : ∀ l, c.Watches l → l.neg ∉ t.lits) : Settled t (cs.push c) k := fun id d hd l hl i hi hlit => by
  rcases live_push hd with hd | ⟨-, rfl⟩
  · exact hs id d hd l hl i hi hlit
  · exact absurd (Array.mem_of_getElem? hlit) (hc l hl)

/-- Sorting and dropping repetitions gives the same clause without duplicates. -/
theorem eraseReps_mergeSort (lits : List Lit) :
    (lits.mergeSort (fun l m => l.code ≤ m.code)).eraseReps = (lits.mergeSort (fun l m => l.code ≤ m.code)).dedup :=
  Lit.eraseReps_mergeSort Lit.code Lit.code_injective lits

namespace Solver

variable {s s' : Solver}

theorem mem_neg_of_hasComplement {ls : List Lit} (h : hasComplement ls = true) : ∃ l ∈ ls, l.neg ∈ ls := by
  fun_induction hasComplement ls with
  | case1 l m ls ih =>
    rcases Bool.or_eq_true_iff.1 h with h | h
    · exact ⟨l, List.mem_cons_self, by simp [of_decide_eq_true h]⟩
    · obtain ⟨p, hp, hn⟩ := ih h
      exact ⟨p, List.mem_cons_of_mem _ hp, List.mem_cons_of_mem _ hn⟩
  | case2 => cases h

/-- The free literals of a clause, none of which holds. -/
structure Remains (t : Trail) (ls rest : List Lit) : Prop where
  sublist : rest.Sublist ls
  free : ∀ l ∈ rest, t.valueOf l = .free
  fails : ∀ l ∈ ls, l ∈ rest ∨ l.neg ∈ t.lits

theorem remaining_gives {ls : List Lit} (ht : t.Valid) (hk : ∀ l ∈ ls, l.var < t.values.size) :
    Gives (remaining t ls) fun
      | none => ∃ l ∈ ls, l ∈ t.lits
      | some rest => Remains t ls rest := by
  induction ls with
  | nil => exact .ok ⟨List.Sublist.slnil, by simp, by simp⟩
  | cons l ls ih =>
    have ih := ih fun m hm => hk m (List.mem_cons_of_mem _ hm)
    rw [remaining, Trail.value_eq (hk l List.mem_cons_self), ok_bind]
    split
    · next hval => exact .pure ⟨l, List.mem_cons_self, (ht.holds_iff l).1 hval⟩
    · next hval =>
      refine ih.imp fun r hr => ?_
      cases r with
      | none =>
        obtain ⟨m, hm, hmt⟩ := hr
        exact ⟨m, List.mem_cons_of_mem _ hm, hmt⟩
      | some rest =>
        refine ⟨hr.sublist.cons l, hr.free, fun m hm => ?_⟩
        rcases List.mem_cons.1 hm with rfl | hm
        · exact .inr (ht.fails_iff.1 hval)
        · exact hr.fails m hm
    · next hval =>
      refine ih.bind fun r hr => .pure ?_
      cases r with
      | none =>
        obtain ⟨m, hm, hmt⟩ := hr
        exact ⟨m, List.mem_cons_of_mem _ hm, hmt⟩
      | some rest =>
        refine ⟨hr.sublist.cons_cons l, fun m hm => ?_, fun m hm => ?_⟩
        · rcases List.mem_cons.1 hm with rfl | hm
          · exact hval
          · exact hr.free m hm
        · rcases List.mem_cons.1 hm with rfl | hm
          · exact .inl List.mem_cons_self
          · exact (hr.fails m hm).imp_left (List.mem_cons_of_mem _)

/-- What holds of a solver between searches, after the clauses `Φ` were given. -/
structure Idle (Φ : List (List Lit)) (s : Solver) : Prop where
  tables : s.Tables
  root : s.board.trail.depth = 0
  valid : s.ok = true → s.board.Valid Φ
  settled : s.ok = true → Settled s.board.trail s.board.store.clauses s.board.trail.head
  given : s.ok = true → ∀ c ∈ Φ, ∀ l ∈ c, l.var < s.board.trail.values.size
  refuted : s.ok = false → ∀ σ, ¬ Models Φ σ

theorem Searching.idle (h : Searching Φ A s) (h0 : s.board.trail.depth = 0) : Idle Φ s :=
  ⟨h.tables, h0, fun _ => h.valid, fun _ => h.settled, fun _ => h.given, fun hok => by
    rw [h.ok] at hok
    cases hok⟩

theorem Idle.of_refuted (ht : s.Tables) (h0 : s.board.trail.depth = 0) (hno : s.ok = false)
    (hΦ : ∀ σ, ¬ Models Φ σ) : Idle Φ s :=
  have habsurd : s.ok ≠ true := by simp [hno]
  ⟨ht, h0, fun h => absurd h habsurd, fun h => absurd h habsurd, fun h => absurd h habsurd, fun _ => hΦ⟩

/-- A search can start where the last one left the solver. -/
theorem Idle.searching (h : Idle Φ s) (hok : s.ok = true) (hA : ∀ p ∈ A, p.var < s.board.trail.values.size) :
    Searching Φ A s where
  valid := h.valid hok
  tables := h.tables
  settled := h.settled hok
  ok := hok
  guided :=
    { assumed := fun k p _ hk => by
        rw [h.root] at hk
        omega
      decided := fun p hp _ k hlev _ => by
        have := (h.valid hok).shaped.trail.level_le_depth hp
        have := h.root
        omega
      opened := fun k start _ hm => by
        have hlt : k < s.board.trail.depth := (Array.getElem?_eq_some_iff.1 hm).1
        rw [h.root] at hlt
        omega }
  assumptions := hA
  given := h.given hok

theorem Idle.same (h : Idle Φ s) (hs : s.Same s') : Idle Φ s' where
  tables := h.tables.same hs
  root := hs.board ▸ h.root
  valid hok := hs.board ▸ h.valid (hs.ok ▸ hok)
  settled hok := hs.board ▸ h.settled (hs.ok ▸ hok)
  given hok := hs.board ▸ h.given (hs.ok ▸ hok)
  refuted hok := h.refuted (hs.ok ▸ hok)

/-- What adding variables leaves alone. -/
structure Widened (s s' : Solver) : Prop where
  options : s'.options = s.options
  budget : s'.budget = s.budget
  ok : s'.ok = s.ok
  vars : s.board.trail.values.size ≤ s'.board.trail.values.size
  given : s'.board.store.given = s.board.store.given

theorem Idle.newVar_gives (h : Idle Φ s) : Gives s.newVar fun r =>
    Idle Φ r.2 ∧ s.Widened r.2 ∧ r.2.board.trail.values.size = s.board.trail.values.size + 1 := by
  have hsize : (s.board.declare (s.board.numVars + 1)).trail.values.size = s.board.trail.values.size + 1 := by
    simp [Board.declare, Trail.declare, Board.numVars]
  unfold newVar
  refine (VarOrder.declare_gives h.tables.order).bind fun order ho => ?_
  refine .pure ⟨⟨⟨?_, ?_, fun v => ?_, ?_, fun v hv => ?_, h.tables.weighted, h.tables.decay⟩, h.root, ?_, ?_, ?_, h.refuted⟩,
    ⟨rfl, rfl, rfl, ?_, rfl⟩, hsize⟩
  all_goals dsimp only [numVars]
  · rw [hsize, Array.size_push, h.tables.phases]
  · rw [hsize, Array.size_push, h.tables.marks]
  · rw [Marked, Array.getElem?_push]
    split
    · simp
    · exact h.tables.clear v
  · exact hsize.symm ▸ ho.1
  · refine (ho.2 v).2 ?_
    have hv : (Table.grow s.board.trail.values (s.board.numVars + 1) .free)[v]? = some .free := hv
    rw [Table.getElem?_grow] at hv
    split at hv
    · exact .inr (h.tables.free v hv)
    · split at hv
      · left
        dsimp only [Board.numVars] at *
        omega
      · cases hv
  · exact fun hok => (h.valid hok).declare _
  · exact fun hok => (h.settled hok).declare _
  · intro hok c hc l hl
    have := h.given hok c hc l hl
    rw [hsize]
    omega
  · rw [hsize]
    omega

theorem Idle.addVars_gives {k : Nat} (h : Idle Φ s) : Gives (addVars k s) fun s' =>
    Idle Φ s' ∧ s.Widened s' ∧ s'.board.trail.values.size = s.board.trail.values.size + k := by
  induction k generalizing s with
  | zero => exact .ok ⟨h, ⟨rfl, rfl, rfl, Nat.le_refl _, rfl⟩, rfl⟩
  | succ k ih =>
    rw [addVars]
    refine h.newVar_gives.bind fun r hr => ?_
    obtain ⟨h₁, hw, hsize⟩ := hr
    refine (ih h₁).imp fun s' hs' => ?_
    obtain ⟨h', hw', hsize'⟩ := hs'
    exact ⟨h', ⟨hw'.options.trans hw.options, hw'.budget.trans hw.budget, hw'.ok.trans hw.ok, by omega,
      hw'.given.trans hw.given⟩, by omega⟩

theorem Idle.ensureVars_gives {n : Nat} (h : Idle Φ s) : Gives (s.ensureVars n) fun s' =>
    Idle Φ s' ∧ s.Widened s' ∧ s'.board.trail.values.size = max s.board.trail.values.size n := by
  refine h.addVars_gives.imp fun s' hs' => ⟨hs'.1, hs'.2.1, ?_⟩
  have : s.numVars = s.board.trail.values.size := rfl
  have := hs'.2.2
  omega

/-- The literals of the root level follow from the clauses. -/
theorem root_entailed {l : Lit} (hv : b.Valid Φ) (h0 : b.trail.depth = 0) (hl : l ∈ b.trail.lits) : Entails Φ [l] :=
  hv.sound.root l hl (Nat.le_zero.1 (h0 ▸ hv.shaped.trail.level_le_depth hl))

/-- Of a new clause, the literals that are false at the root level do not matter. -/
theorem Remains.entailed {c ls rest : List Lit} (h : Remains b.trail ls rest) (hv : b.Valid Φ)
    (h0 : b.trail.depth = 0) (hls : ∀ l ∈ c, l ∈ ls) : Entails (Φ ++ [c]) rest := fun σ hσ => by
  obtain ⟨hΦ, hc⟩ := models_append.1 hσ
  obtain ⟨l, hl, hlσ⟩ := Lit.anyHolds_iff.1 (models_singleton.1 hc)
  rcases h.fails l (hls l hl) with hr | hn
  · exact Lit.anyHolds_iff.2 ⟨l, hr, hlσ⟩
  · have := (root_entailed hv h0 hn).holds hΦ
    simp [hlσ] at this

/-- What adding a clause whose variables are below `n` leaves alone. -/
structure Enlarged (s s' : Solver) (n : Nat) : Prop where
  options : s'.options = s.options
  budget : s'.budget = s.budget
  vars : s.board.trail.values.size ≤ s'.board.trail.values.size
  vars_le : s'.board.trail.values.size ≤ max s.board.trail.values.size n
  given : s'.board.store.given.size ≤ s.board.store.given.size + 1

theorem Enlarged.of_same {n : Nat} (ho : s'.options = s.options) (hb : s'.budget = s.budget)
    (hv : s'.board.trail.values.size = s.board.trail.values.size)
    (hg : s'.board.store.given.size ≤ s.board.store.given.size + 1) : s.Enlarged s' n :=
  ⟨ho, hb, Nat.le_of_eq hv.symm, hv ▸ Nat.le_max_left .., hg⟩

theorem Enlarged.of_widened {s'' : Solver} {n : Nat} (hw : s.Widened s')
    (hn : s'.board.trail.values.size = max s.board.trail.values.size n) (h : s'.Enlarged s'' n) : s.Enlarged s'' n where
  options := h.options.trans hw.options
  budget := h.budget.trans hw.budget
  vars := Nat.le_trans hw.vars h.vars
  vars_le := by
    have := h.vars_le
    omega
  given := hw.given ▸ h.given

section AddClause

variable {c rest : List Lit} (h : Idle Φ s) (hok : s.ok = true) (hk : ∀ l ∈ c, l.var < s.board.trail.values.size)

include h hok hk

theorem Idle.given_append : ∀ d ∈ Φ ++ [c], ∀ l ∈ d, l.var < s.board.trail.values.size := fun d hd => by
  rcases List.mem_append.1 hd with hd | hd
  · exact h.given hok d hd
  · rw [List.mem_singleton.1 hd]
    exact hk

/-- A clause that follows changes nothing. -/
theorem Idle.addEntailed (hc : Entails Φ c) : Idle (Φ ++ [c]) s :=
  ⟨h.tables, h.root, fun _ => (h.valid hok).given_append hc, fun _ => h.settled hok, fun _ => h.given_append hok hk,
    fun hno => by rw [hok] at hno; cases hno⟩

/-- A literal that a clause forces is propagated. -/
theorem Idle.propagateUnit_gives {l : Lit} (hl : l ∈ c) (hf : s.board.trail.valueOf l = .free)
    (hent : Entails (Φ ++ [c]) [l]) : Gives (s.board.pushed l none).propagate fun r =>
      Propagated (Φ ++ [c]) (s.board.pushed l none) r ∧ ({ s with board := r.2 } : Solver).Tables := by
  have hv := h.valid hok
  have ht := hv.shaped.trail
  have hlk := hk l hl
  have hv' : (s.board.pushed l none).Valid (Φ ++ [c]) :=
    hv.pushedFor hlk hf (by simp) (fun _ => .inl h.root) (hv.sound.pushed_given ht hlk hf h.root hl hent)
  have hs' : Settled (s.board.pushed l none).trail s.board.store.clauses (s.board.pushed l none).trail.head :=
    (h.settled hok).pushed hlk hf ht ht.head_le
  refine (propagate_gives hv' hs').imp fun r hr => ⟨hr, ?_⟩
  obtain ⟨hg, hvb, -⟩ := hr
  have hsize : r.2.trail.values.size = s.board.trail.values.size := hg.values_size.trans Board.size_values_pushed
  refine h.tables.update hsize h.tables.order (fun v hv => h.tables.free v ?_) (hg.weighted h.tables.weighted) hg.decay
  exact (Trail.free_of_pushed (hg.free hv'.shaped.trail hvb.shaped.trail hv)).2

/-- A clause with one free literal forces it. -/
theorem Idle.addUnit_gives {l : Lit} (hl : l ∈ c) (hf : s.board.trail.valueOf l = .free)
    (hent : Entails (Φ ++ [c]) [l]) :
    Gives (do
      let (conflict, board) ← (← s.board.assign l none).propagate
      return (conflict.isNone, { s with board, ok := conflict.isNone }) : Except Fault (Bool × Solver)) fun r =>
      Idle (Φ ++ [c]) r.2 ∧ r.1 = r.2.ok ∧ s.Enlarged r.2 (Lit.span c) := by
  rw [Board.assign_eq (hk l hl) hf, ok_bind]
  refine (h.propagateUnit_gives hok hk hl hf hent).bind fun r hr => ?_
  obtain ⟨conflict, b⟩ := r
  obtain ⟨⟨hg, hvb, hhead, hend⟩, htables⟩ := hr
  dsimp only at hg hvb hhead hend htables
  have hsize : b.trail.values.size = s.board.trail.values.size := hg.values_size.trans Board.size_values_pushed
  have hdepth : b.trail.depth = 0 := by
    rw [Trail.depth, hg.marks]
    exact h.root
  have hgiven : b.store.given = s.board.store.given := hg.given
  refine .pure ⟨⟨?_, hdepth, fun _ => hvb, fun hnone => ?_, fun _ => ?_, fun hsome => ?_⟩, rfl,
    .of_same rfl rfl hsize (hgiven ▸ Nat.le_succ _)⟩
  · obtain ⟨h1, h2, h3, h4, h5, h6, h7⟩ := htables
    exact ⟨h1, h2, h3, h4, h5, h6, h7⟩
  · cases conflict with
    | none => exact hhead ▸ hend
    | some id => cases hnone
  · exact hsize ▸ h.given_append hok hk
  · cases conflict with
    | none => cases hsome
    | some id => exact hvb.refuted hdepth hend.2

/-- A clause with more free literals is watched by two of them. -/
theorem Idle.addLong_gives {l m : Lit} {ls : List Lit} (hn : (l :: m :: ls).Nodup)
    (hsub : ∀ q ∈ l :: m :: ls, q ∈ c) (hf : ∀ q ∈ l :: m :: ls, s.board.trail.valueOf q = .free)
    (hent : Entails (Φ ++ [c]) (l :: m :: ls)) :
    Gives (do return (true, { s with board := (← s.board.addClause (l :: m :: ls).toArray false).2 }) :
      Except Fault (Bool × Solver)) fun r =>
      Idle (Φ ++ [c]) r.2 ∧ r.1 = r.2.ok ∧ s.Enlarged r.2 (Lit.span c) := by
  have hv := h.valid hok
  have hkr : ∀ q ∈ l :: m :: ls, q.var < s.board.trail.values.size := fun q hq => hk q (hsub q hq)
  have hcode : ∀ q ∈ l :: m :: ls, q.code < s.board.watchers.size := fun q hq =>
    hv.table_size ▸ Lit.code_lt_iff.2 (hkr q hq)
  have hl : (l :: m :: ls).toArray[0]? = some l := rfl
  have hm : (l :: m :: ls).toArray[1]? = some m := rfl
  have hvalid : (s.board.added (l :: m :: ls).toArray false l m).Valid (Φ ++ [c]) := by
    refine hv.added hl hm hn (fun q hq => hkr q (List.mem_toArray.1 hq)) (fun σ hσ => (models_append.1 hσ).1) hent
      fun σ hσ hany => models_append.2 ⟨hσ, models_singleton.2 ?_⟩
    obtain ⟨q, hq, hqσ⟩ := Lit.anyHolds_iff.1 (hany rfl)
    exact Lit.anyHolds_iff.2 ⟨q, hsub q hq, hqσ⟩
  rw [Board.addClause_eq hl hm (hcode l (by simp)) (hcode m (by simp)), ok_bind]
  refine .pure ⟨⟨?_, h.root, fun _ => hvalid, fun _ => ?_, fun _ => h.given_append hok hk, fun hno => ?_⟩, hok.symm,
    .of_same rfl rfl rfl (Nat.le_of_eq (Array.size_push _))⟩
  · exact h.tables.update rfl h.tables.order h.tables.free (h.tables.weighted.add _ _) rfl
  · show Settled s.board.trail (s.board.added _ _ _ _).store.clauses _
    rw [Board.clauses_added]
    refine (h.settled hok).push fun q hq hneg => ?_
    have := hf q (List.mem_toArray.1 hq.mem)
    exact (hv.shaped.trail.free_iff.1 this).2 hneg
  · rw [hok] at hno
    cases hno

end AddClause

theorem Idle.addClause_gives (h : Idle Φ s) (lits : List Lit) : Gives (s.addClause lits) fun r =>
    Idle (Φ ++ [lits]) r.2 ∧ r.1 = r.2.ok ∧ s.Enlarged r.2 (Lit.span lits) := by
  unfold addClause
  rw [if_neg (not_not.2 h.root)]
  dsimp only [pure_bind]
  split
  · next hno =>
    have hno : s.ok = false := by simpa using hno
    refine .pure ⟨.of_refuted (h.tables.same ⟨rfl, rfl, rfl, rfl, rfl, rfl⟩) h.root hno fun σ hσ => ?_, hno.symm,
      .of_same rfl rfl rfl (Nat.le_succ _)⟩
    exact h.refuted hno σ (models_append.1 hσ).1
  next hno =>
  have hok : s.ok = true := by simpa using hno
  have h₀ : Idle Φ { s with numAdded := s.numAdded + 1 } := h.same ⟨rfl, rfl, rfl, rfl, rfl, rfl⟩
  refine h₀.ensureVars_gives.bind fun s₁ hs₁ => ?_
  obtain ⟨h₁, hw, hspan⟩ := hs₁
  have hok₁ : s₁.ok = true := hw.ok.trans hok
  have hv := h₁.valid hok₁
  have hk : ∀ l ∈ lits, l.var < s₁.board.trail.values.size := fun l hl =>
    hspan ▸ Nat.lt_of_lt_of_le (Lit.lt_span hl) (Nat.le_max_right ..)
  have hwide : ∀ s', s₁.Enlarged s' (Lit.span lits) → s.Enlarged s' (Lit.span lits) := fun s' h =>
    have h' := Enlarged.of_widened hw hspan h
    ⟨h'.options, h'.budget, h'.vars, h'.vars_le, h'.given⟩
  have hkeep : Entails Φ lits → Gives (.ok (true, s₁) : Except Fault (Bool × Solver)) fun r =>
      Idle (Φ ++ [lits]) r.2 ∧ r.1 = r.2.ok ∧ s.Enlarged r.2 (Lit.span lits) := fun hent =>
    .ok ⟨h₁.addEntailed hok₁ hk hent, hok₁.symm, hwide _ (.of_same rfl rfl rfl (Nat.le_succ _))⟩
  have hframe : ∀ r : Bool × Solver, (Idle (Φ ++ [lits]) r.2 ∧ r.1 = r.2.ok ∧ s₁.Enlarged r.2 (Lit.span lits)) →
      Idle (Φ ++ [lits]) r.2 ∧ r.1 = r.2.ok ∧ s.Enlarged r.2 (Lit.span lits) :=
    fun r hr => ⟨hr.1, hr.2.1, hwide _ hr.2.2⟩
  have hmem : ∀ l, l ∈ (lits.mergeSort (fun l m => l.code ≤ m.code)).dedup ↔ l ∈ lits := fun l => by
    rw [List.mem_dedup, List.mem_mergeSort]
  have hnodup := List.nodup_dedup (lits.mergeSort (fun l m => l.code ≤ m.code))
  rw [eraseReps_mergeSort]
  generalize (lits.mergeSort (fun l m => l.code ≤ m.code)).dedup = ls at hmem hnodup
  split
  · next htaut =>
    obtain ⟨l, hl, hln⟩ := mem_neg_of_hasComplement htaut
    refine hkeep fun σ _ => Lit.anyHolds_iff.2 ?_
    cases hσ : l.holds σ with
    | true => exact ⟨l, (hmem l).1 hl, hσ⟩
    | false => exact ⟨l.neg, (hmem _).1 hln, by simp [hσ]⟩
  refine (remaining_gives hv.shaped.trail fun l hl => hk l ((hmem l).1 hl)).bind fun r hr => ?_
  cases r with
  | none =>
    obtain ⟨l, hl, hlt⟩ := hr
    exact hkeep ((root_entailed hv h₁.root hlt).mono fun m hm => by rw [List.mem_singleton.1 hm]; exact (hmem l).1 hl)
  | some rest =>
    have hent : Entails (Φ ++ [lits]) rest := hr.entailed hv h₁.root fun l hl => (hmem l).2 hl
    have hsub : ∀ l ∈ rest, l ∈ lits := fun l hl => (hmem l).1 (hr.sublist.subset hl)
    rcases rest with _ | ⟨l, _ | ⟨m, ls⟩⟩
    · refine .pure ⟨.of_refuted ?_ h₁.root rfl fun σ hσ => ?_, rfl, hwide _ (.of_same rfl rfl rfl (Nat.le_succ _))⟩
      · obtain ⟨h1, h2, h3, h4, h5, h6, h7⟩ := h₁.tables
        exact ⟨h1, h2, h3, h4, h5, h6, h7⟩
      · simpa [Lit.anyHolds] using hent σ hσ
    · exact (h₁.addUnit_gives hok₁ hk (hsub l List.mem_cons_self) (hr.free l List.mem_cons_self) hent).imp hframe
    · exact (h₁.addLong_gives hok₁ hk (hr.sublist.nodup hnodup) hsub hr.free hent).imp hframe

/-- What an answer under the assumptions `A` says of the clauses `Φ`: a model gives every variable a
value, and makes a literal of every clause and every assumption true; no model at all satisfies the
clauses and the assumptions; or the budget was used up. -/
def Right (Φ : List (List Lit)) (A : List Lit) (s s' : Solver) : Answer → Prop
  | .sat => (∀ v < s'.numVars, s'.value (.positive v) ≠ .free) ∧ (∀ c ∈ Φ, ∃ l ∈ c, s'.value l = .holds) ∧
      ∀ p ∈ A, s'.value p = .holds
  | .unsat => ∀ σ, Models Φ σ → ¬ ∀ p ∈ A, p.holds σ = true
  | .unknown => s.Exhausted s'

theorem Answered.backtrack_gives {a : Answer} (h : Answered Φ A s s' a) : Gives (s'.backtrack 0) fun s'' =>
    Idle Φ s'' ∧ s'.Carried s'' ∧ Right Φ A s s'' a := by
  cases a with
  | sat =>
    obtain ⟨hsearch, hall, hclauses, hassumed⟩ := h
    refine hsearch.backtrack_zero.imp fun s'' hs'' => ?_
    obtain ⟨h', hc, h0, hmodel⟩ := hs''
    have hvalue : ∀ l, s''.value l = s'.value l := fun l => by rw [value, value, hmodel]
    have hsize : s''.numVars = s'.board.trail.values.size := hc.vars
    exact ⟨h'.idle h0, hc, fun v hv => by rw [hvalue]; exact hall v (hsize ▸ hv),
      fun c hc => by simpa only [hvalue] using hclauses c hc, fun p hp => by rw [hvalue]; exact hassumed p hp⟩
  | unsat =>
    obtain ⟨hsearch | ⟨ht, hno, h0, hΦ⟩, hright⟩ := h
    · refine hsearch.backtrack_zero.imp fun s'' hs'' => ?_
      obtain ⟨h', hc, h0, -⟩ := hs''
      exact ⟨h'.idle h0, hc, hright⟩
    · exact .of_eq (backtrack_eq_self (Nat.le_of_eq h0)) ⟨.of_refuted ht h0 hno hΦ, .refl s', hright⟩
  | unknown =>
    refine h.1.backtrack_zero.imp fun s'' hs'' => ?_
    obtain ⟨h', hc, h0, -⟩ := hs''
    obtain ⟨i, hle, hlt, hi⟩ := h.2
    exact ⟨h'.idle h0, hc, i, hle, Nat.lt_of_lt_of_le hlt hc.polls, hi⟩

/-- What a search under the assumptions `A` leaves alone, apart from the questions to the budget. -/
structure Searched (A : List Lit) (s s' : Solver) : Prop where
  options : s'.options = s.options
  answers : s'.budget.answers = s.budget.answers
  polls : s.budget.polls ≤ s'.budget.polls
  vars : s.board.trail.values.size ≤ s'.board.trail.values.size
  vars_le : s'.board.trail.values.size ≤ max s.board.trail.values.size (Lit.span A)
  given : s'.board.store.given.size ≤ s.board.store.given.size

/-- A search answers right, unless it breaks off. -/
theorem Idle.solve_breaks (h : Idle Φ s) (A : List Lit) : Yields (s.Breaks A) (s.solve A) fun r =>
    Idle Φ r.2 ∧ Searched A s r.2 ∧ Right Φ A s r.2 r.1 := by
  unfold solve
  dsimp only
  have h₀ : Idle Φ { s with model := #[] } := h.same ⟨rfl, rfl, rfl, rfl, rfl, rfl⟩
  split
  · next hno =>
    have hno : s.ok = false := by simpa using hno
    exact .pure ⟨h₀, ⟨rfl, rfl, Nat.le_refl _, Nat.le_refl _, Nat.le_max_left .., Nat.le_refl _⟩,
      fun σ hσ => (h.refuted hno σ hσ).elim⟩
  next hno =>
  have hok : s.ok = true := by simpa using hno
  obtain ⟨s₁, hvars, h₁, hw, hspan⟩ := h₀.ensureVars_gives (n := Lit.span A)
  rw [hvars, ok_bind]
  have hspan : s₁.board.trail.values.size = max s.board.trail.values.size (Lit.span A) := hspan
  have hA : ∀ p ∈ A, p.var < s₁.board.trail.values.size := fun p hp =>
    hspan ▸ Nat.lt_of_lt_of_le (Lit.lt_span hp) (Nat.le_max_right ..)
  have hsearch : Searching Φ A { s₁ with limit := .start s₁.options s₁.board.store.given.size } :=
    (h₁.searching (hw.ok.trans hok) hA).same ⟨rfl, rfl, rfl, rfl, rfl, rfl⟩
  have ho : s₁.options = s.options := hw.options
  have hb : s₁.budget = s.budget := hw.budget
  have hgiven : s₁.board.store.given = s.board.store.given := hw.given
  have hresumes : Resumes A s 0 { s₁ with limit := .start s₁.options s₁.board.store.given.size } :=
    fun _ hpoll => .start hok hvars hpoll
  refine (hsearch.rounds_yields hresumes ho (fun h0 => absurd rfl h0) (by decide)).bind fun r hr => ?_
  obtain ⟨answer, s₂⟩ := r
  obtain ⟨hc, hanswer⟩ := hr
  refine (Yields.of_gives hanswer.backtrack_gives).bind fun s₃ hs₃ => ?_
  obtain ⟨h₃, hc₃, hright⟩ := hs₃
  have hvars : s₃.board.trail.values.size = max s.board.trail.values.size (Lit.span A) :=
    (hc₃.vars.trans hc.vars).trans hspan
  refine .pure ⟨h₃, ⟨hc₃.options.trans (hc.options.trans ho), ?_, ?_, ?_, Nat.le_of_eq hvars, ?_⟩, ?_⟩
  · rw [hc₃.answers, hc.answers, hb]
  · exact hb ▸ Nat.le_trans hc.polls hc₃.polls
  · rw [hvars]
    exact Nat.le_max_left ..
  · exact hgiven ▸ Nat.le_trans hc₃.given hc.given
  · cases answer with
    | unknown =>
      obtain ⟨i, hle, hlt, hi⟩ := hright
      exact ⟨i, hb ▸ hle, hlt, hb ▸ hi⟩
    | _ => exact hright

/-- A search meets a fault when a machine number leaves its range, and otherwise only if activities
cannot be compared, which takes a factor that is not a positive finite number. -/
def Strained (o : Options) (e : Fault) : Prop := e = .overflow ∨ ¬ Scales o.clauseDecay

/-- The faults of a strained machine, by name: a number left its range, or clauses could not be sorted. -/
def Excused (o : Options) (e : Fault) : Prop := e = .overflow ∨ e = .order ∧ ¬ Scales o.clauseDecay

theorem Excused.strained {o : Options} {e : Fault} (h : Excused o e) : Strained o e := h.imp_right And.right

theorem Idle.solve_excused (h : Idle Φ s) (A : List Lit) : Yields (Excused s.options) (s.solve A) fun r =>
    Idle Φ r.2 ∧ r.2.options = s.options ∧ Right Φ A s r.2 r.1 := by
  refine ((h.solve_breaks A).mono fun e he => ?_).imp fun r hr => ⟨hr.1, hr.2.1.options, hr.2.2⟩
  exact he.symm.imp_left And.left

theorem Idle.solve_yields (h : Idle Φ s) (A : List Lit) : Yields (Strained s.options) (s.solve A) fun r =>
    Idle Φ r.2 ∧ r.2.options = s.options ∧ Right Φ A s r.2 r.1 :=
  (h.solve_excused A).mono fun _ he => he.strained

theorem idle_new (o : Options) : Idle [] (new o) := by
  have hlive : ∀ {id : Nat} {c : Clause}, ¬ Live #[] id c := by simp [Live]
  have hwatch : ∀ l w, w ∉ (new o).board.watchersOf l := by simp [Board.watchersOf, new]
  have htrail : Trail.Valid {} := by constructor <;> simp [Trail.valueOf, Value.flip]
  have hshaped : Shaped {} #[] := by
    refine ⟨htrail, ?_, ?_, ?_, ?_, ?_⟩ <;> simp [hlive]
  have hsound : Sound [] {} #[] := by
    refine ⟨?_, ?_, ?_⟩ <;> simp [hlive, Models]
  have hlisted : Listed (new o).board.store := by constructor <;> simp [new]
  refine ⟨⟨rfl, rfl, ?_, ⟨rfl, ?_, ?_⟩, ?_, ?_, rfl⟩, rfl, fun _ => ⟨hshaped, hsound, rfl, ⟨?_, ?_, ?_, ?_⟩, hlisted⟩,
    fun _ _ _ hc => (hlive hc).elim, ?_, ?_⟩
  · simp [new, Marked]
  · simp [new]
  · simp [new]
  · simp [new]
  · exact fun _ => ⟨Number.weighs_one, by simp [new]⟩
  · exact fun l w hw => (hwatch l w hw).elim
  · exact fun l w hw => (hwatch l w hw).elim
  · exact fun l w hw => (hwatch l w hw).elim
  · exact fun id c hc => (hlive hc).elim
  · simp
  · simp [new]

/-- The calls that use a solver. -/
inductive Call where
  | newVar
  | addClause (lits : List Lit)
  | setBudget (budget : Budget)
  | solve (assumptions : List Lit)

/-- The solver after a call. -/
def after (s : Solver) : Call → Except Fault Solver
  | .newVar => return (← s.newVar).2
  | .addClause lits => return (← s.addClause lits).2
  | .setBudget budget => return { s with budget }
  | .solve assumptions => return (← s.solve assumptions).2

/-- The clause that a call adds. -/
def Call.clause? : Call → Option (List Lit)
  | .addClause lits => some lits
  | _ => none

theorem Idle.after_excused (h : Idle Φ s) (call : Call) : Yields (Excused s.options) (s.after call) fun s' =>
    Idle (Φ ++ call.clause?.toList) s' ∧ s'.options = s.options := by
  cases call with
  | newVar =>
    refine (Yields.of_gives h.newVar_gives).bind fun r hr => .pure ⟨?_, hr.2.1.options⟩
    simpa [Call.clause?] using hr.1
  | addClause lits =>
    exact (Yields.of_gives (h.addClause_gives lits)).bind fun r hr => .pure ⟨hr.1, hr.2.2.options⟩
  | setBudget budget =>
    refine .pure ⟨?_, rfl⟩
    have hsame : s.Same { s with budget } := ⟨rfl, rfl, rfl, rfl, rfl, rfl⟩
    simpa [Call.clause?] using h.same hsame
  | solve A =>
    refine (h.solve_excused A).bind fun r hr => .pure ⟨?_, hr.2.1⟩
    simpa [Call.clause?] using hr.1

/-- Between searches all is well after any calls. -/
theorem Idle.run_excused (h : Idle Φ s) (calls : List Call) : Yields (Excused s.options) (calls.foldlM after s) fun s' =>
    Idle (Φ ++ calls.filterMap Call.clause?) s' ∧ s'.options = s.options := by
  induction calls generalizing Φ s with
  | nil => exact .pure ⟨by simpa using h, rfl⟩
  | cons call calls ih =>
    rw [List.foldlM_cons]
    refine (h.after_excused call).bind fun s₁ hs₁ => ?_
    have hrest := (ih hs₁.1).mono fun e he => hs₁.2 ▸ he
    refine hrest.imp fun s' hs' => ⟨?_, hs'.2.trans hs₁.2⟩
    have hclauses : (call :: calls).filterMap Call.clause? = call.clause?.toList ++ calls.filterMap Call.clause? := by
      cases hc : call.clause? <;> simp [hc]
    rw [hclauses, ← List.append_assoc]
    exact hs'.1

theorem Idle.run_yields (h : Idle Φ s) (calls : List Call) : Yields (Strained s.options) (calls.foldlM after s) fun s' =>
    Idle (Φ ++ calls.filterMap Call.clause?) s' ∧ s'.options = s.options :=
  (h.run_excused calls).mono fun _ he => he.strained

/-- Whatever calls a solver has answered before, a search answers right about the clauses added so far,
unless it meets one of the faults of a strained machine. -/
theorem solve_right_after_calls (o : Options) (calls : List Call) (A : List Lit) :
    Yields (Strained o) (calls.foldlM after (new o)) fun s =>
      Yields (Strained o) (s.solve A) fun r => Right (calls.filterMap Call.clause?) A s r.2 r.1 := by
  refine ((idle_new o).run_yields calls).imp fun s hs => ?_
  have ho : s.options = o := hs.2
  exact (ho ▸ hs.1.solve_yields A).imp fun r hr => hr.2.2

end Solver

end Countermodels.Sat
