import Countermodels.Proofs.Number.Weight
import Countermodels.Proofs.Sat.Propagate
import Countermodels.Proofs.Sort

/-! What becomes of a valid board when its clauses change: activities are raised, a clause is added, and
clauses are dropped that are satisfied for good or were only learnt. A clause that is the reason for a
literal is never dropped. -/

namespace Countermodels.Sat

open Number (Weighs Scales rank)

namespace Clause

/-- All of a clause but its activity. -/
def bare (c : Clause) : Array Lit × Bool × Bool := (c.lits, c.learnt, c.deleted)

end Clause

namespace ClauseStore

variable {s s' : ClauseStore} {id : Nat}

/-- While the step grows by a positive factor, activities stay comparable. -/
def Weighted (s : ClauseStore) : Prop := Scales s.decay → Weighs s.step ∧ ∀ c ∈ s.clauses, Weighs c.activity

/-- The same store but for activities. -/
structure Reweighed (s s' : ClauseStore) : Prop where
  bare : ∀ i : Nat, s'.clauses[i]?.map Clause.bare = s.clauses[i]?.map Clause.bare
  given : s'.given = s.given
  learnts : s'.learnts = s.learnts
  decay : s'.decay = s.decay
  weighted : s.Weighted → s'.Weighted

theorem Reweighed.refl (s : ClauseStore) : Reweighed s s := ⟨fun _ => rfl, rfl, rfl, rfl, id⟩

theorem Reweighed.trans {s'' : ClauseStore} (h : Reweighed s s') (h' : Reweighed s' s'') : Reweighed s s'' :=
  ⟨fun i => (h'.bare i).trans (h.bare i), h'.given.trans h.given, h'.learnts.trans h.learnts,
    h'.decay.trans h.decay, fun hw => h'.weighted (h.weighted hw)⟩

theorem bare_modify {cs : Array Clause} {f : Clause → Clause} (hf : ∀ c, (f c).bare = c.bare) (k i : Nat) :
    (cs.modify k f)[i]?.map Clause.bare = cs[i]?.map Clause.bare := by
  rw [Array.getElem?_modify]
  split
  · cases cs[i]? with
    | none => rfl
    | some c => simp [hf]
  · rfl

theorem forall_mem_modify {cs : Array Clause} {P : Clause → Prop} {f : Clause → Clause} (hf : ∀ c, P c → P (f c))
    (k : Nat) (h : ∀ c ∈ cs, P c) : ∀ c ∈ cs.modify k f, P c := fun c hc => by
  obtain ⟨i, hi⟩ := Array.mem_iff_getElem?.1 hc
  rw [Array.getElem?_modify] at hi
  split at hi
  · obtain ⟨d, hd, rfl⟩ := Option.map_eq_some_iff.1 hi
    exact hf d (h d (Array.mem_of_getElem? hd))
  · exact h c (Array.mem_of_getElem? hi)

theorem scales_shrink : Scales shrink := ⟨rfl⟩

theorem bump_gives (hid : id < s.clauses.size) : Gives (s.bump id) (Reweighed s) := by
  unfold bump
  rw [Table.read_of_lt hid, ok_bind]
  split
  · exact .pure (.refl s)
  · have hbare : ∀ (a : Float) (i : Nat), (s.clauses.modify id ({ · with activity := a }))[i]?.map Clause.bare =
        s.clauses[i]?.map Clause.bare := fun a i => by
      rw [bare_modify]
      exact fun _ => rfl
    have hraised : Weighs s.step → (∀ c ∈ s.clauses, Weighs c.activity) →
        Weighs (s.clauses[id].activity + s.step) := fun hstep hw => (hw _ (Array.getElem_mem hid)).add hstep
    dsimp only
    revert hraised
    generalize s.clauses[id].activity + s.step = raised
    intro hraised
    split
    · refine .pure ⟨?_, rfl, rfl, rfl, fun hw hd => ?_⟩
      · dsimp only
        rw [← Array.foldl_toList]
        refine List.foldlRecOn (motive := fun cs : Array Clause => ∀ i : Nat, cs[i]?.map Clause.bare =
          s.clauses[i]?.map Clause.bare) s.learnts.toList _ (hbare raised) fun cs hcs k _ i => ?_
        rw [bare_modify, hcs]
        exact fun _ => rfl
      · obtain ⟨hstep, hw⟩ := hw hd
        refine ⟨hstep.mul scales_shrink, ?_⟩
        dsimp only
        rw [← Array.foldl_toList]
        refine List.foldlRecOn (motive := fun cs : Array Clause => ∀ c ∈ cs, Weighs c.activity) s.learnts.toList _
          (forall_mem_modify (P := (Weighs ·.activity)) (f := ({ · with activity := raised }))
            (fun _ _ => hraised hstep hw) id hw) fun cs hcs k _ => ?_
        exact forall_mem_modify (P := (Weighs ·.activity)) (fun _ hc => hc.mul scales_shrink) k hcs
    · refine .pure ⟨hbare raised, rfl, rfl, rfl, fun hw hd => ?_⟩
      obtain ⟨hstep, hw⟩ := hw hd
      refine ⟨hstep, ?_⟩
      exact forall_mem_modify (P := (Weighs ·.activity)) (f := ({ · with activity := raised }))
        (fun _ _ => hraised hstep hw) id hw

theorem reweighed_fade (s : ClauseStore) : Reweighed s s.fade :=
  ⟨fun _ => rfl, rfl, rfl, rfl, fun hw hd => ⟨(hw hd).1.div hd, (hw hd).2⟩⟩

namespace Reweighed

variable (h : Reweighed s s')

include h

theorem alike : Alike s.clauses s'.clauses := fun id => by
  have := h.bare id
  revert this
  generalize s.clauses[id]? = x, s'.clauses[id]? = y
  intro hxy
  rcases x with _ | c <;> rcases y with _ | d
  · exact .none
  · simp at hxy
  · simp at hxy
  · obtain ⟨hlits, hlearnt, hdel⟩ : d.lits = c.lits ∧ d.learnt = c.learnt ∧ d.deleted = c.deleted := by
      simpa [Clause.bare] using hxy
    exact .some ⟨hlearnt, hdel, by rw [hlits]⟩

theorem lits_eq {c d : Clause} (hc : Live s.clauses id c) (hd : Live s'.clauses id d) : d.lits = c.lits := by
  have := h.bare id
  rw [hc.1, hd.1] at this
  exact congrArg Prod.fst (Option.some.inj this)

theorem live {d : Clause} (hd : Live s'.clauses id d) : ∃ c, Live s.clauses id c ∧ c.lits = d.lits := by
  obtain ⟨c, hc, -⟩ := h.alike.live hd
  exact ⟨c, hc, (h.lits_eq hc hd).symm⟩

end Reweighed

end ClauseStore

open ClauseStore

variable {Φ : List (List Lit)} {b : Board} {s' : ClauseStore} {t : Trail} {k id : Nat}

theorem Board.Valid.reweigh (h : b.Valid Φ) (hr : Reweighed b.store s') : ({ b with store := s' } : Board).Valid Φ where
  shaped := h.shaped.alike hr.alike fun id c d hc hd p _ hp => by rw [hr.lits_eq hc hd, hp]
  sound := h.sound.alike hr.alike
  table_size := h.table_size
  watched := h.watched.alike hr.alike fun id c d hc hd l => by
    rw [Clause.Watches, Clause.Watches, hr.lits_eq hc hd]
  listed := h.listed.alike hr.alike hr.given hr.learnts

theorem Settled.reweigh (h : Settled t b.store.clauses k) (hr : Reweighed b.store s') : Settled t s'.clauses k :=
  fun id d hd l hl i hi hlit => by
    obtain ⟨c, hc, hcd⟩ := hr.live hd
    rw [Clause.Watches, ← hcd] at hl
    obtain ⟨m, hm, hrest⟩ := h id c hc l hl i hi hlit
    exact ⟨m, hcd ▸ hm, hrest⟩

/-! A new clause. -/

theorem live_push {cs : Array Clause} {c d : Clause} (h : Live (cs.push c) id d) :
    Live cs id d ∨ id = cs.size ∧ d = c := by
  obtain ⟨hid, hdel⟩ := h
  rw [Array.getElem?_push] at hid
  split at hid
  · next he => exact .inr ⟨he, (Option.some.inj hid).symm⟩
  · exact .inl ⟨hid, hdel⟩

theorem Live.push {cs : Array Clause} {c d : Clause} (h : Live cs id d) : Live (cs.push c) id d := by
  have := (Array.getElem?_eq_some_iff.1 h.1).1
  exact ⟨by rw [Array.getElem?_push, if_neg (by omega), h.1], h.2⟩

theorem Shaped.push {cs : Array Clause} {c : Clause} (h : Shaped t cs) (h2 : 2 ≤ c.lits.size)
    (hn : c.lits.toList.Nodup) (hk : ∀ l ∈ c.lits, l.var < t.values.size) : Shaped t (cs.push c) where
  trail := h.trail
  two_le id d hd := (live_push hd).elim (h.two_le id d) fun he => he.2 ▸ h2
  nodup id d hd := (live_push hd).elim (h.nodup id d) fun he => he.2 ▸ hn
  known id d hd := (live_push hd).elim (h.known id d) fun he => he.2 ▸ hk
  reason i p id hi hr := by
    obtain ⟨d, hd, hrest⟩ := h.reason i p id hi hr
    exact ⟨d, hd.push, hrest⟩
  decision := h.decision

/-- The clauses that were given may change with a new clause, as long as they say no more than it. -/
theorem Sound.push {Ψ : List (List Lit)} {cs : Array Clause} {c : Clause} (h : Sound Φ t cs)
    (hc : c.deleted = false) (hless : ∀ σ, Models Ψ σ → Models Φ σ) (hent : Entails Ψ c.lits.toList)
    (hmore : ∀ σ, Models Φ σ → (c.learnt = false → Lit.anyHolds c.lits.toList σ = true) → Models Ψ σ) :
    Sound Ψ t (cs.push c) where
  clause id d hd := (live_push hd).elim (fun hd σ hσ => h.clause id d hd σ (hless σ hσ)) fun he => he.2 ▸ hent
  root l hl h0 := fun σ hσ => h.root l hl h0 σ (hless σ hσ)
  complete σ hroot hgiven := by
    refine hmore σ (h.complete σ hroot fun id d hd => hgiven id d hd.push) fun hl => ?_
    exact hgiven cs.size c ⟨by simp, hc⟩ hl

theorem Watched.push {cs : Array Clause} {n : Nat} {W W' : Lit → List Watcher} {c : Clause} {l m : Lit}
    (h : Watched cs n W) (hl : c.lits[0]? = some l) (hm : c.lits[1]? = some m) (hne : l ≠ m) (hln : l.var < n)
    (hmn : m.var < n)
    (hW : ∀ q, W' q = W q ++ (if q = l then [⟨cs.size, m⟩] else if q = m then [⟨cs.size, l⟩] else [])) :
    Watched (cs.push c) n W' := by
  have hmem : ∀ q, ∀ w ∈ W' q, w ∈ W q ∨ w.clause = cs.size ∧ (w.blocker = l ∨ w.blocker = m) := fun q w hw => by
    rw [hW] at hw
    rcases List.mem_append.1 hw with hw | hw
    · exact .inl hw
    · right
      split at hw
      · rw [List.mem_singleton.1 hw]
        exact ⟨rfl, .inr rfl⟩
      · split at hw
        · rw [List.mem_singleton.1 hw]
          exact ⟨rfl, .inl rfl⟩
        · exact absurd hw (by simp)
  have hwatches : ∀ q, c.Watches q ↔ q = l ∨ q = m := fun q => by
    rw [Clause.Watches, hl, hm, Option.some.injEq, Option.some.injEq, eq_comm, eq_comm (a := m)]
  refine ⟨fun q w hw => ?_, fun q w hw => ?_, fun q w hw d hd => ?_, fun j d hd q => ?_⟩
  · rw [Array.size_push]
    rcases hmem q w hw with hw | hw
    · exact Nat.lt_succ_of_lt (h.clause_lt q w hw)
    · omega
  · rcases hmem q w hw with hw | ⟨-, hw | hw⟩
    · exact h.blocker_lt q w hw
    · exact hw ▸ hln
    · exact hw ▸ hmn
  · rcases live_push hd with hd | ⟨hid, rfl⟩
    · have hlt := (Array.getElem?_eq_some_iff.1 hd.1).1
      rcases hmem q w hw with hw | ⟨hw, -⟩
      · exact h.blocker_mem q w hw d hd
      · omega
    · rcases hmem q w hw with hw | ⟨-, hw | hw⟩
      · exact absurd (h.clause_lt q w hw) (by omega)
      · exact hw ▸ Array.mem_of_getElem? hl
      · exact hw ▸ Array.mem_of_getElem? hm
  · rw [hW, List.countP_append]
    rcases live_push hd with hd | ⟨rfl, rfl⟩
    · have hlt := (Array.getElem?_eq_some_iff.1 hd.1).1
      rw [h.count j d hd q, List.countP_eq_zero.2, Nat.add_zero]
      intro w hw
      have : w.clause = cs.size := by
        split at hw
        · rw [List.mem_singleton.1 hw]
        · split at hw
          · rw [List.mem_singleton.1 hw]
          · exact absurd hw (by simp)
      simp only [decide_eq_true_eq]
      omega
    · have hzero : (W q).countP (·.clause = cs.size) = 0 := List.countP_eq_zero.2 fun w hw => by
        have := h.clause_lt q w hw
        simp only [decide_eq_true_eq]
        omega
      rw [hzero, Nat.zero_add]
      simp only [hwatches]
      by_cases hql : q = l
      · simp [hql]
      · by_cases hqm : q = m
        · simp [hqm, Ne.symm hne]
        · simp [hql, hqm]

theorem ClauseStore.clauses_add (s : ClauseStore) (lits : Array Lit) (learnt : Bool) :
    (s.add lits learnt).2.clauses = s.clauses.push ⟨lits, learnt, false, 0.0⟩ := by cases learnt <;> rfl

theorem Listed.add {s : ClauseStore} (h : Listed s) (lits : Array Lit) (learnt : Bool) :
    Listed (s.add lits learnt).2 := by
  have hold : ∀ {id : Nat} {c : Clause}, s.clauses[id]? = some c → (s.add lits learnt).2.clauses[id]? = some c :=
    fun {id c} hc => by
      have := (Array.getElem?_eq_some_iff.1 hc).1
      rw [clauses_add, Array.getElem?_push, if_neg (by omega), hc]
  have hnew : (s.add lits learnt).2.clauses[s.clauses.size]? = some ⟨lits, learnt, false, 0.0⟩ := by
    rw [clauses_add, Array.getElem?_push_size]
  refine ⟨fun id c hc hdel => ?_, fun id hid => ?_, fun id hid => ?_⟩
  · rw [clauses_add, Array.getElem?_push] at hc
    split at hc
    · obtain rfl := Option.some.inj hc
      cases hdel
    · exact h.empty id c hc hdel
  · have hid : id ∈ s.given ∨ id = s.clauses.size := by
      cases learnt with
      | true => exact .inl hid
      | false => exact Array.mem_push.1 hid
    rw [clauses_add, Array.size_push]
    rcases hid with hid | rfl
    · exact Nat.lt_succ_of_lt (h.given_lt id hid)
    · exact Nat.lt_succ_self _
  · have hid : id ∈ s.learnts ∨ id = s.clauses.size ∧ learnt = true := by
      cases learnt with
      | true => exact (Array.mem_push.1 hid).imp_right fun h => ⟨h, rfl⟩
      | false => exact .inl hid
    rcases hid with hid | ⟨rfl, hl⟩
    · obtain ⟨c, hc, hlearnt⟩ := h.learnt id hid
      exact ⟨c, hold hc, hlearnt⟩
    · exact ⟨_, hnew, hl⟩

namespace Board

variable {lits : Array Lit} {learnt : Bool} {l m : Lit}

/-- The board with a new clause, which its first two literals watch. -/
def added (b : Board) (lits : Array Lit) (learnt : Bool) (l m : Lit) : Board :=
  { b with
    store := (b.store.add lits learnt).2
    watchers := (b.watchers.modify l.code (·.push ⟨b.store.clauses.size, m⟩)).modify m.code
      (·.push ⟨b.store.clauses.size, l⟩) }

theorem clauses_added : (b.added lits learnt l m).store.clauses = b.store.clauses.push ⟨lits, learnt, false, 0.0⟩ :=
  b.store.clauses_add lits learnt

theorem addClause_eq (hl : lits[0]? = some l) (hm : lits[1]? = some m) (hlk : l.code < b.watchers.size)
    (hmk : m.code < b.watchers.size) :
    b.addClause lits learnt = .ok (b.store.clauses.size, b.added lits learnt l m) := by
  have hread : Table.read (b.store.add lits learnt).2.clauses b.store.clauses.size =
      .ok ⟨lits, learnt, false, 0.0⟩ := 
    Table.read_of_some (by rw [clauses_add, Array.getElem?_push_size])
  have hid : (b.store.add lits learnt).1 = b.store.clauses.size := by cases learnt <;> rfl
  rw [addClause]
  simp only [attach, hid, hread, ok_bind, hl, hm]
  rw [watch_eq (b := { b with store := (b.store.add lits learnt).2 }) hlk, ok_bind, watch_eq (by simpa using hmk)]
  rfl

theorem toList_getD_push {ws : Array (Array Watcher)} {w : Watcher} (hm : m.code < ws.size) (q : Lit) :
    ((ws.modify m.code (·.push w)).getD q.code #[]).toList =
      (ws.getD q.code #[]).toList ++ if q = m then [w] else [] := by
  rw [toList_getD_modify hm]
  simp only [code_inj]
  split
  · next hq => simp [hq, Array.getD_eq_getD_getElem?, hm]
  · rw [List.append_nil]

theorem watchersOf_added (hne : l ≠ m) (hlk : l.code < b.watchers.size) (hmk : m.code < b.watchers.size) (q : Lit) :
    (b.added lits learnt l m).watchersOf q = b.watchersOf q ++ (if q = l then [⟨b.store.clauses.size, m⟩]
      else if q = m then [⟨b.store.clauses.size, l⟩] else []) := by
  rw [watchersOf, added, toList_getD_push (by simpa using hmk), toList_getD_push hlk, List.append_assoc, watchersOf]
  by_cases hql : q = l
  · rw [if_pos hql, if_pos hql, if_neg (hql ▸ hne), List.append_nil]
  · rw [if_neg hql, if_neg hql, List.nil_append]

/-- A board stays valid with a clause more. -/
theorem Valid.added {Ψ : List (List Lit)} (h : b.Valid Φ) (hl : lits[0]? = some l) (hm : lits[1]? = some m)
    (hn : lits.toList.Nodup) (hk : ∀ q ∈ lits, q.var < b.trail.values.size)
    (hless : ∀ σ, Models Ψ σ → Models Φ σ) (hent : Entails Ψ lits.toList)
    (hmore : ∀ σ, Models Φ σ → (learnt = false → Lit.anyHolds lits.toList σ = true) → Models Ψ σ) :
    (b.added lits learnt l m).Valid Ψ := by
  have h2 : 2 ≤ lits.size := (Array.getElem?_eq_some_iff.1 hm).1
  have hlk := hk l (Array.mem_of_getElem? hl)
  have hmk := hk m (Array.mem_of_getElem? hm)
  have hne : l ≠ m := fun he => by
    have := (List.getElem?_inj (i := 0) (j := 1) (by simp; omega) hn).1 (by simp [hl, hm, he])
    exact absurd this (by decide)
  have hcode : ∀ {q : Lit}, q.var < b.trail.values.size → q.code < b.watchers.size := fun hq =>
    h.table_size ▸ Lit.code_lt_iff.2 hq
  refine ⟨?_, ?_, ?_, ?_, h.listed.add lits learnt⟩
  · rw [clauses_added]
    exact h.shaped.push h2 hn hk
  · rw [clauses_added]
    exact h.sound.push rfl hless hent hmore
  · simpa [Board.added] using h.table_size
  · rw [clauses_added]
    exact h.watched.push hl hm hne hlk hmk (watchersOf_added hne (hcode hlk) (hcode hmk))

end Board

theorem ClauseStore.Weighted.add {s : ClauseStore} (h : s.Weighted) (lits : Array Lit) (learnt : Bool) :
    (s.add lits learnt).2.Weighted := fun hd => by
  obtain ⟨hstep, hdecay⟩ : (s.add lits learnt).2.step = s.step ∧ (s.add lits learnt).2.decay = s.decay := by
    cases learnt <;> exact ⟨rfl, rfl⟩
  obtain ⟨h1, h2⟩ := h (hdecay ▸ hd)
  rw [clauses_add, hstep]
  refine ⟨h1, fun c hc => ?_⟩
  rcases Array.mem_push.1 hc with hc | rfl
  · exact h2 c hc
  · exact Number.weighs_zero

/-! Dropping clauses. -/

/-- The clause is the reason for its first literal. -/
def Locks (t : Trail) (id : Nat) (c : Clause) : Prop :=
  ∃ l ∈ t.lits, c.lits[0]? = some l ∧ t.reasonOf l.var = some id

/-- Some clauses of which `D` holds were deleted. -/
def Dropped (D : Nat → Clause → Prop) (cs ds : Array Clause) : Prop :=
  ∀ id : Nat, ds[id]? = cs[id]? ∨ ∃ c, cs[id]? = some c ∧ ds[id]? = some c.delete ∧ D id c

namespace Dropped

variable {D : Nat → Clause → Prop} {cs ds es : Array Clause}

theorem refl (cs : Array Clause) : Dropped D cs cs := fun _ => .inl rfl

theorem some_of_some (h : Dropped D cs ds) {d : Clause} (hd : ds[id]? = some d) :
    ∃ c, cs[id]? = some c ∧ (d = c ∨ d = c.delete ∧ D id c) := by
  rcases h id with he | ⟨c, hc, hdel, hD⟩
  · exact ⟨d, he ▸ hd, .inl rfl⟩
  · exact ⟨c, hc, .inr ⟨Option.some.inj (hd.symm.trans hdel), hD⟩⟩

theorem live (h : Dropped D cs ds) {d : Clause} (hd : Live ds id d) : Live cs id d := by
  obtain ⟨c, hc, rfl | ⟨rfl, -⟩⟩ := h.some_of_some hd.1
  · exact ⟨hc, hd.2⟩
  · exact absurd hd.2 (by simp [Clause.delete])

theorem size_eq (h : Dropped D cs ds) : ds.size = cs.size := by
  have hnone : ∀ id : Nat, ds[id]? = none ↔ cs[id]? = none := fun id => by
    rcases h id with he | ⟨c, hc, hdel, -⟩
    · rw [he]
    · simp [hc, hdel]
  have h1 := (hnone cs.size).2 (Array.getElem?_eq_none (Nat.le_refl _))
  have h2 := (hnone ds.size).1 (Array.getElem?_eq_none (Nat.le_refl _))
  have := Array.getElem?_eq_none_iff.1 h1
  have := Array.getElem?_eq_none_iff.1 h2
  omega

/-- A clause that is not dropped stays. -/
theorem keep (h : Dropped D cs ds) {c : Clause} (hc : Live cs id c) (hD : ¬ D id c) : Live ds id c := by
  rcases h id with he | ⟨d, hd, -, hDd⟩
  · exact ⟨he ▸ hc.1, hc.2⟩
  · exact absurd (Option.some.inj (hd.symm.trans hc.1) ▸ hDd) hD

theorem modify (h : Dropped D cs ds) {d : Clause} (hd : ds[id]? = some d) (hD : D id d) :
    Dropped D cs (ds.modify id Clause.delete) := fun j => by
  rw [Array.getElem?_modify]
  split
  · next he =>
    subst he
    rw [hd]
    obtain ⟨c, hc, rfl | ⟨rfl, hDc⟩⟩ := h.some_of_some hd
    · exact .inr ⟨d, hc, rfl, hD⟩
    · exact .inr ⟨c, hc, rfl, hDc⟩
  · exact h j

end Dropped

/-- Dropping clauses that are no reasons keeps a board valid, if those that were given are satisfied at
the root level. -/
theorem Board.Valid.drop {D : Nat → Clause → Prop} {ds : Array Clause} {given learnts : Array Nat}
    (h : b.Valid Φ) (hd : Dropped D b.store.clauses ds) (hlock : ∀ id c, D id c → ¬ Locks b.trail id c)
    (hgiven : ∀ id c, Live b.store.clauses id c → D id c → c.learnt = false →
      ∃ l ∈ c.lits, l ∈ b.trail.lits ∧ b.trail.levelOf l.var = 0)
    (hg : ∀ id ∈ given, id ∈ b.store.given) (hl : ∀ id ∈ learnts, id ∈ b.store.learnts) :
    ({ b with store := { b.store with clauses := ds, given, learnts } } : Board).Valid Φ where
  shaped :=
    { trail := h.shaped.trail
      two_le := fun id c hc => h.shaped.two_le id c (hd.live hc)
      nodup := fun id c hc => h.shaped.nodup id c (hd.live hc)
      known := fun id c hc => h.shaped.known id c (hd.live hc)
      reason := fun i p id hi hr => by
        obtain ⟨c, hc, hfirst, hrest⟩ := h.shaped.reason i p id hi hr
        exact ⟨c, hd.keep hc fun hD => hlock id c hD ⟨p, Array.mem_of_getElem? hi, hfirst, hr⟩, hfirst, hrest⟩
      decision := h.shaped.decision }
  sound :=
    { clause := fun id c hc => h.sound.clause id c (hd.live hc)
      root := h.sound.root
      complete := fun σ hroot hσ => h.sound.complete σ hroot fun id c hc hlearnt => by
        by_cases hD : D id c
        · obtain ⟨l, hl, hlt, h0⟩ := hgiven id c hc hD hlearnt
          exact Lit.anyHolds_iff.2 ⟨l, Array.mem_toList_iff.2 hl, hroot l hlt h0⟩
        · exact hσ id c (hd.keep hc hD) hlearnt }
  table_size := h.table_size
  watched :=
    { clause_lt := fun l w hw => by
        show w.clause < ds.size
        rw [hd.size_eq]
        exact h.watched.clause_lt l w hw
      blocker_lt := h.watched.blocker_lt
      blocker_mem := fun l w hw c hc => h.watched.blocker_mem l w hw c (hd.live hc)
      count := fun id c hc => h.watched.count id c (hd.live hc) }
  listed :=
    { empty := fun id d hdd hdel => by
        obtain ⟨c, hc, rfl | ⟨rfl, -⟩⟩ := hd.some_of_some hdd
        · exact h.listed.empty id d hc hdel
        · rfl
      given_lt := fun id hid => by
        show id < ds.size
        rw [hd.size_eq]
        exact h.listed.given_lt id (hg id hid)
      learnt := fun id hid => by
        obtain ⟨c, hc, hlearnt⟩ := h.listed.learnt id (hl id hid)
        rcases hd id with he | ⟨d, hdd, hdel, -⟩
        · exact ⟨c, he.trans hc, hlearnt⟩
        · obtain rfl := Option.some.inj (hdd.symm.trans hc)
          exact ⟨_, hdel, hlearnt⟩ }

theorem Settled.drop {D : Nat → Clause → Prop} {cs ds : Array Clause} (h : Settled t cs k) (hd : Dropped D cs ds) :
    Settled t ds k := fun id c hc => h id c (hd.live hc)

theorem ClauseStore.Weighted.drop {D : Nat → Clause → Prop} {s : ClauseStore} {ds : Array Clause}
    {given learnts : Array Nat} (h : s.Weighted) (hd : Dropped D s.clauses ds) :
    ({ s with clauses := ds, given, learnts } : ClauseStore).Weighted := fun hs => by
  refine ⟨(h hs).1, fun d hdm => ?_⟩
  obtain ⟨id, hid⟩ := Array.mem_iff_getElem?.1 hdm
  obtain ⟨c, hc, rfl | ⟨rfl, -⟩⟩ := hd.some_of_some hid
  · exact (h hs).2 d (Array.mem_of_getElem? hc)
  · exact (h hs).2 c (Array.mem_of_getElem? hc)

namespace ClauseStore

theorem anyHolds_gives (ht : t.Valid) {ls : List Lit} (hk : ∀ l ∈ ls, l.var < t.values.size) :
    Gives (anyHolds t ls) fun r => r = true → ∃ l ∈ ls, l ∈ t.lits := by
  induction ls with
  | nil => exact .ok fun h => by cases h
  | cons l ls ih =>
    rw [anyHolds, Trail.value_eq (hk l List.mem_cons_self), ok_bind]
    split
    · next hl => exact .pure fun _ => ⟨l, List.mem_cons_self, (ht.holds_iff l).1 hl⟩
    · refine (ih fun m hm => hk m (List.mem_cons_of_mem _ hm)).imp fun r hr hrt => ?_
      obtain ⟨m, hm, hmt⟩ := hr hrt
      exact ⟨m, List.mem_cons_of_mem _ hm, hmt⟩

theorem locked_gives (ht : t.Valid) {c : Clause} (hk : ∀ l ∈ c.lits, l.var < t.values.size) :
    Gives (locked t id c) fun r => r = false → ¬ Locks t id c := by
  unfold locked
  split
  · next hnone =>
    refine .pure fun _ hlock => ?_
    obtain ⟨l, -, hl, -⟩ := hlock
    simp [hnone] at hl
  · next l hl =>
    have hlk := hk l (Array.mem_of_getElem? hl)
    rw [Trail.value_eq hlk, ok_bind]
    split
    · rw [Trail.reason_eq_ok (ht.origins_size ▸ hlk), ok_bind]
      refine .pure fun hr hlock => ?_
      obtain ⟨m, -, hm, hreason⟩ := hlock
      obtain rfl := Option.some.inj (hl.symm.trans hm)
      simp [hreason] at hr
    · next hv =>
      refine .pure fun _ hlock => hv ?_
      obtain ⟨m, hmt, hm, -⟩ := hlock
      obtain rfl := Option.some.inj (hl.symm.trans hm)
      exact (ht.holds_iff l).2 hmt

variable {D : Nat → Clause → Prop} {keep : Nat → Nat → Clause → Except Fault Bool} {cs ds : Array Clause}

theorem prune_gives {ids : List Nat} {place : Nat} {kept : Array Nat}
    (hempty : ∀ (id : Nat) (c : Clause), cs[id]? = some c → c.deleted = true → c.lits = #[])
    (hids : ∀ id ∈ ids, id < cs.size) (h : Dropped D cs ds)
    (hkeep : ∀ place, ∀ id ∈ ids, ∀ c, Live cs id c ∨ c.lits = #[] →
      Gives (keep place id c) fun r => r = false → D id c) :
    Gives (prune keep ids place kept ds) fun r => Dropped D cs r.2 ∧ (∀ id ∈ r.1, id ∈ kept ∨ id ∈ ids) ∧
      r.1.size ≤ kept.size + ids.length := by
  induction ids generalizing place kept ds with
  | nil => exact .ok ⟨h, fun id hid => .inl hid, Nat.le_refl _⟩
  | cons id ids ih =>
    obtain ⟨d, hd⟩ : ∃ d, ds[id]? = some d :=
      ⟨_, Array.getElem?_eq_getElem (h.size_eq ▸ hids id List.mem_cons_self)⟩
    have hrest : ∀ id ∈ ids, id < cs.size := fun id hid => hids id (List.mem_cons_of_mem _ hid)
    have hkeep' := fun place i (hi : i ∈ ids) => hkeep place i (List.mem_cons_of_mem _ hi)
    have hcase : Live cs id d ∨ d.lits = #[] := by
      obtain ⟨c, hc, rfl | ⟨rfl, -⟩⟩ := h.some_of_some hd
      · by_cases hdel : d.deleted = true
        · exact .inr (hempty id d hc hdel)
        · exact .inl ⟨hc, by simpa using hdel⟩
      · exact .inr rfl
    rw [prune, Table.read_of_some hd, ok_bind]
    refine (hkeep place id List.mem_cons_self d hcase).bind fun r hr => ?_
    cases r with
    | true =>
      refine (ih hrest h hkeep').imp fun r hr => ⟨hr.1, fun j hj => ?_, ?_⟩
      · rcases hr.2.1 j hj with hj | hj
        · rcases Array.mem_push.1 hj with hj | rfl
          · exact .inl hj
          · exact .inr List.mem_cons_self
        · exact .inr (List.mem_cons_of_mem _ hj)
      · have hsize := hr.2.2
        rw [Array.size_push] at hsize
        rw [List.length_cons]
        omega
    | false =>
      refine (ih hrest (h.modify hd (hr rfl)) hkeep').imp fun r hr => ⟨hr.1, fun j hj => ?_, ?_⟩
      · exact (hr.2.1 j hj).imp_right (List.mem_cons_of_mem _)
      · exact Nat.le_succ_of_le hr.2.2

end ClauseStore

/-- A board whose store lost some clauses. -/
structure Lightened (Φ : List (List Lit)) (b : Board) (s' : ClauseStore) : Prop where
  valid : ({ b with store := s' } : Board).Valid Φ
  settled : ∀ k, Settled b.trail b.store.clauses k → Settled b.trail s'.clauses k
  weighted : b.store.Weighted → s'.Weighted
  decay : s'.decay = b.store.decay
  given : s'.given.size ≤ b.store.given.size

/-- The literals of a clause that is live or empty are known. -/
theorem Board.Valid.known_of_live (h : b.Valid Φ) {c : Clause} (hc : Live b.store.clauses id c ∨ c.lits = #[]) :
    ∀ l ∈ c.lits, l.var < b.trail.values.size := fun l hl => by
  rcases hc with hc | hc
  · exact h.shaped.known id c hc l hl
  · rw [hc] at hl
    exact absurd hl (Array.not_mem_empty l)

theorem simplify_gives (h : b.Valid Φ) (h0 : b.trail.depth = 0) :
    Gives (b.store.simplify b.trail) (Lightened Φ b) := by
  have hgiven : ∀ id ∈ b.store.given.toList, id < b.store.clauses.size := fun id hid =>
    h.listed.given_lt id (Array.mem_toList_iff.1 hid)
  have hlearnt : ∀ id ∈ b.store.learnts.toList, id < b.store.clauses.size := fun id hid => by
    obtain ⟨c, hc, -⟩ := h.listed.learnt id (Array.mem_toList_iff.1 hid)
    exact (Array.getElem?_eq_some_iff.1 hc).1
  -- a clause is dropped if one of its literals is true and it is no reason
  have hkeep : ∀ id c, Live b.store.clauses id c ∨ c.lits = #[] →
      Gives (do if ← anyHolds b.trail c.lits.toList then locked b.trail id c else return true)
        fun r => r = false → (∃ l ∈ c.lits, l ∈ b.trail.lits) ∧ ¬ Locks b.trail id c := fun id c hc => by
    have hk := h.known_of_live hc
    refine (anyHolds_gives h.shaped.trail fun l hl => hk l (Array.mem_toList_iff.1 hl)).bind fun r hr => ?_
    cases r with
    | true =>
      obtain ⟨l, hl, hlt⟩ := hr rfl
      exact (locked_gives h.shaped.trail hk).imp fun r hr hrf => ⟨⟨l, Array.mem_toList_iff.1 hl, hlt⟩, hr hrf⟩
    | false => exact .pure fun h => by cases h
  unfold simplify
  rw [if_neg (by simpa using h0)]
  refine (prune_gives h.listed.empty hgiven (.refl _) fun _ id _ c hc => hkeep id c hc).bind fun r hr => ?_
  obtain ⟨given, ds⟩ := r
  refine (prune_gives h.listed.empty hlearnt hr.1 fun _ id _ c hc => hkeep id c hc).bind fun r' hr' => ?_
  obtain ⟨learnts, es⟩ := r'
  have hroot : ∀ l ∈ b.trail.lits, b.trail.levelOf l.var = 0 := fun l hl =>
    Nat.le_zero.1 (h0 ▸ h.shaped.trail.level_le_depth hl)
  refine .pure ⟨h.drop hr'.1 (fun id c hD => hD.2) (fun id c _ hD _ => ?_) (fun id hid => ?_) (fun id hid => ?_),
    fun k hs => hs.drop hr'.1, fun hw => hw.drop hr'.1, rfl, by simpa using hr.2.2⟩
  · obtain ⟨l, hl, hlt⟩ := hD.1
    exact ⟨l, hl, hlt, hroot l hlt⟩
  · simpa using hr.2.1 id hid
  · simpa using hr'.2.1 id hid

/-- Learnt clauses whose activities are comparable can be put in order. -/
theorem comparable_droppedBefore {cs : Array Clause} {ids : List Nat} (hids : ∀ id ∈ ids, id < cs.size)
    (hw : ∀ c ∈ cs, Weighs c.activity) : Sort.Comparable (droppedBefore cs) ids := by
  have hlt : ∀ i ∈ ids, ∀ j ∈ ids, ∃ a ∈ cs, ∃ b ∈ cs, cs[i]? = some a ∧ cs[j]? = some b ∧
      (droppedBefore cs i j = true ↔ decide (2 < a.lits.size) = true ∧ decide (2 < b.lits.size) = false ∨
        decide (2 < a.lits.size) = decide (2 < b.lits.size) ∧
          Number.rankLt (rank a.activity.toModel.unpack) (rank b.activity.toModel.unpack)) := fun i hi j hj => by
    obtain ⟨a, ha⟩ : ∃ a, cs[i]? = some a := ⟨_, Array.getElem?_eq_getElem (hids i hi)⟩
    obtain ⟨b, hb⟩ : ∃ b, cs[j]? = some b := ⟨_, Array.getElem?_eq_getElem (hids j hj)⟩
    refine ⟨a, Array.mem_of_getElem? ha, b, Array.mem_of_getElem? hb, ha, hb, ?_⟩
    rw [droppedBefore, ha, hb, ← (hw a (Array.mem_of_getElem? ha)).lt_iff (hw b (Array.mem_of_getElem? hb))]
    dsimp only
    by_cases h1 : 2 < a.lits.size <;> by_cases h2 : 2 < b.lits.size <;> simp [h1, h2]
  refine ⟨fun i hi j hj h => ?_, fun i hi j hj k hk h => ?_⟩
  · obtain ⟨a, -, b, -, ha, hb, hab⟩ := hlt i hi j hj
    obtain ⟨b', -, a', -, hb', ha', hba⟩ := hlt j hj i hi
    obtain rfl := Option.some.inj (ha.symm.trans ha')
    obtain rfl := Option.some.inj (hb.symm.trans hb')
    rw [← Bool.not_eq_true, hba]
    have := hab.1 h
    unfold Number.rankLt at this ⊢
    grind
  · obtain ⟨a, -, c, -, ha, hc, hac⟩ := hlt i hi k hk
    obtain ⟨a', -, b, -, ha', hb, hab⟩ := hlt i hi j hj
    obtain ⟨b', -, c', -, hb', hc', hbc⟩ := hlt j hj k hk
    obtain rfl := Option.some.inj (ha.symm.trans ha')
    obtain rfl := Option.some.inj (hb.symm.trans hb')
    obtain rfl := Option.some.inj (hc.symm.trans hc')
    rw [hab, hbc]
    have := hac.1 h
    unfold Number.rankLt at this ⊢
    grind

/-- Dropping half of the learnt clauses fails only where activities need not be comparable. -/
theorem reduce_yields (h : b.Valid Φ) (hw : b.store.Weighted) :
    Yields (fun e => e = .order ∧ ¬ Scales b.store.decay) (b.store.reduce b.trail) (Lightened Φ b) := by
  have hlearnt : ∀ id ∈ b.store.learnts.toList, id < b.store.clauses.size := fun id hid => by
    obtain ⟨c, hc, -⟩ := h.listed.learnt id (Array.mem_toList_iff.1 hid)
    exact (Array.getElem?_eq_some_iff.1 hc).1
  unfold reduce
  dsimp only
  refine ((Sort.sort_yields b.store.learnts.toList).mono fun _ he =>
    ⟨he.1, fun hd => he.2 (comparable_droppedBefore hlearnt (hw hd).2)⟩).bind fun sorted hsorted => .of_gives ?_
  have hmem : ∀ id ∈ sorted, id ∈ b.store.learnts.toList := fun id hid => hsorted.subset hid
  refine (prune_gives (D := fun id c => c.learnt = true ∧ ¬ Locks b.trail id c) h.listed.empty
    (fun id hid => hlearnt id (hmem id hid)) (.refl _) fun place id hid c hc => ?_).bind fun r hr => ?_
  · split
    · exact .pure fun h => by cases h
    · next hlong =>
      refine (locked_gives h.shaped.trail (h.known_of_live hc)).bind fun locked hlocked => ?_
      cases locked with
      | true => exact .pure fun h => by cases h
      | false =>
        refine .pure fun _ => ⟨?_, hlocked rfl⟩
        obtain ⟨d, hd, hdl⟩ := h.listed.learnt id (Array.mem_toList_iff.1 (hmem id hid))
        rcases hc with hc | hc
        · exact Option.some.inj (hc.1.symm.trans hd) ▸ hdl
        · simp [hc] at hlong
  · obtain ⟨learnts, ds⟩ := r
    refine .pure ⟨h.drop hr.1 (fun id c hD => hD.2) (fun id c _ hD hl => ?_) (fun _ => id) (fun id hid => ?_),
      fun k hs => hs.drop hr.1, fun hw => hw.drop hr.1, rfl, Nat.le_refl _⟩
    · simp [hD.1] at hl
    · simpa using (hr.2.1 id hid).imp_right (hmem id)

end Countermodels.Sat
