import Countermodels.Proofs.Sat.Watching

/-! Unit propagation. It ends with all literals propagated, or with a clause that became false at the
current level; either way the board stays valid. -/

namespace Countermodels.Sat

open Board

/-- A board whose watchers of `l` were taken out, those that stay being `kept`. -/
structure Held (Φ : List (List Lit)) (l : Lit) (kept : Array Watcher) (b : Board) : Prop where
  shaped : Shaped b.trail b.store.clauses
  sound : Sound Φ b.trail b.store.clauses
  table_size : b.watchers.size = 2 * b.trail.values.size
  listed : Listed b.store
  empty : b.watchersOf l = []
  watched : Watched b.store.clauses b.trail.values.size (Function.update b.watchersOf l kept.toList)

/-- A clause is false, and one of its literals became so at the current level. -/
def Conflict (t : Trail) (cs : Array Clause) (id : Nat) : Prop :=
  ∃ c, Live cs id c ∧ (∀ q ∈ c.lits, q.neg ∈ t.lits) ∧ ∃ q ∈ c.lits, t.levelOf q.var = t.depth

variable {Φ : List (List Lit)} {l : Lit} {ws : List Watcher} {kept : Array Watcher} {b : Board}

/-- How a visit ends. -/
def VisitEnd (b : Board) : Option Nat → Board → Prop
  | none, b' => b'.trail.head = b.trail.head ∧ Settled b'.trail b'.store.clauses b'.trail.head
  | some id, b' => b'.trail.head = b'.trail.lits.size ∧
      Settled b'.trail b'.store.clauses b'.trail.levelStart ∧ Conflict b'.trail b'.store.clauses id

theorem Visiting.held (h : Visiting Φ l [] kept b) : Held Φ l kept b :=
  ⟨h.shaped, h.sound, h.table_size, h.listed, h.empty, by simpa using h.watched⟩

/-- The watchers that are left stay when a clause is false. -/
theorem Visiting.clash {w : Watcher} {first : Lit} {c : Clause} (h : Visiting Φ l (w :: ws) kept b)
    (hc : Live b.store.clauses w.clause c) (hfirst : first ∈ c.lits)
    (hall : ∀ q ∈ c.lits, q.neg ∈ b.trail.lits) :
    Held Φ l (kept.push ⟨w.clause, first⟩ ++ ws) { b with trail := b.trail.finish } ∧
      VisitEnd b (some w.clause) { b with trail := b.trail.finish } := by
  have hw := h.watches hc
  have hkeep : Watched b.store.clauses b.trail.values.size
      (Function.update b.watchersOf l (kept.push ⟨w.clause, first⟩ ++ ws).toList) := by
    have := h.watched.replace (Function.update_self ..) (show (⟨w.clause, first⟩ : Watcher).clause = _ from rfl)
      (h.shaped.known _ c hc first hfirst) fun d hd => hd.unique hc ▸ hfirst
    simpa [Function.update_idem] using this
  refine ⟨⟨h.shaped.withHead h.shaped.trail.finish, h.sound.withHead _, h.table_size, h.listed, h.empty, hkeep⟩,
    rfl, fun id d hd m hm i hi hlit => ?_, c, hc, hall, l, hw.mem, h.level⟩
  -- literals of lower levels were settled before this visit
  have hlt : b.trail.levelAt i < b.trail.depth := h.shaped.trail.finish.lt_levelStart_iff.1 hi
  refine h.settled id d hd m hm (fun hml => ?_) i ?_ hlit
  · have := h.shaped.trail.level_eq i m.neg hlit
    rw [Lit.var_neg, hml, h.level] at this
    omega
  · exact Nat.lt_of_lt_of_le hi h.shaped.trail.levelStart_le

/-- What a visit gives. -/
def Visited (Φ : List (List Lit)) (l : Lit) (b : Board) (r : Option Nat × Array Watcher × Board) : Prop :=
  Grown b r.2.2 ∧ Held Φ l r.2.1 r.2.2 ∧ VisitEnd b r.1 r.2.2

theorem Visited.of_grown {b' : Board} {r : Option Nat × Array Watcher × Board} (hg : Grown b b')
    (hh : b'.trail.head = b.trail.head) (h : Visited Φ l b' r) : Visited Φ l b r := by
  obtain ⟨hg', hheld, hend⟩ := h
  refine ⟨hg.trans hg', hheld, ?_⟩
  cases hr : r.1 with
  | none =>
    rw [hr] at hend
    exact ⟨hend.1.trans hh, hend.2⟩
  | some id =>
    rw [hr] at hend
    exact hend

theorem visit_gives (h : Visiting Φ l ws kept b) : Gives (Board.visit l ws kept b) (Visited Φ l b) := by
  induction ws generalizing kept b with
  | nil => exact .ok ⟨.refl b, h.held, rfl, fun id c hc m hm => h.settled id c hc m hm (by simp)⟩
  | cons w ws ih =>
    rw [Board.visit, Trail.value_eq (h.watched.blocker_lt l w Visiting.mem_update), ok_bind]
    split
    · next hb =>
      have hblock := (h.shaped.trail.holds_iff _).1 hb
      have hmem := fun c hc => h.watched.blocker_mem l w Visiting.mem_update c hc
      exact ih (h.keep rfl (h.watched.blocker_lt l w Visiting.mem_update) hmem fun c hc => h.covers (hmem c hc) hblock)
    · next hb =>
      obtain ⟨c, hc⟩ : ∃ c, b.store.clauses[w.clause]? = some c :=
        ⟨_, Array.getElem?_eq_getElem (h.watched.clause_lt l w Visiting.mem_update)⟩
      rw [Table.read_of_some hc, ok_bind]
      by_cases hdel : c.deleted = true
      · rw [if_pos hdel]
        refine ih (h.drop fun d hd => ?_)
        have := Option.some.inj (hc.symm.trans hd.1) ▸ hd.2
        simp [hdel] at this
      · rw [if_neg hdel]
        have hlive : Live b.store.clauses w.clause c := ⟨hc, by simpa using hdel⟩
        obtain ⟨first, turned, ds, c', horient, hturn, hc', h0, h1, hk, h', hg⟩ := h.turn hlive
        have hfirst : first ∈ c'.lits := Array.mem_of_getElem? h0
        have hfk : first.var < b.trail.values.size := h'.shaped.known _ c' hc' first hfirst
        -- the watcher stays where the clause is satisfied
        have hkeep : ∀ {b'}, Visiting Φ l (w :: ws) kept b' → Live b'.store.clauses w.clause c' →
            b'.trail.values.size = b.trail.values.size → first ∈ b'.trail.lits →
            Visiting Φ l ws (kept.push ⟨w.clause, first⟩) b' := fun {b'} hv hc' hsize hmem =>
          hv.keep rfl (hsize ▸ hfk) (fun d hd => hd.unique hc' ▸ hfirst)
            fun d hd => hv.covers (hd.unique hc' ▸ hfirst) hmem
        rw [horient, ok_bind]
        simp only [hturn]
        rw [Trail.value_eq hfk, ok_bind]
        split
        · next hv =>
          exact (ih (hkeep h' hc' rfl ((h.shaped.trail.holds_iff _).1 hv))).imp fun r hr => hr.of_grown hg rfl
        · next hv =>
          refine (seek_gives (h.shaped.known _ c hlive) 2).bind fun found hfound => ?_
          cases found with
          | some km =>
            obtain ⟨k, m⟩ := km
            obtain ⟨hk2, hm, hmv⟩ := hfound
            -- another literal takes the place of `l`
            have hm' : c'.lits[k]? = some m := (hk k hk2).trans hm
            obtain ⟨es, hswap, he, hother⟩ := swap_eq (b := b.withClauses ds) hc'.1 1 k
            have hmcode : m.code < b.watchers.size := h.table_size ▸
              Lit.code_lt_iff.2 (h.shaped.known _ c hlive m (Array.mem_of_getElem? hm))
            have hgs : Grown (b.withClauses ds) (b.withClauses es) :=
              grown_withClauses hc'.1 he (swapIfInBounds_perm ..) hother
            simp only [hswap]
            rw [watch_eq (b := (b.withClauses ds).withClauses es) hmcode, ok_bind]
            refine (ih (h'.move hc' h0 h1 hk2 hm' hmv he hother)).imp fun r hr => ?_
            exact hr.of_grown (hg.trans (hgs.withWatchers _)) rfl
          | none =>
            have hfalse : ∀ q ∈ c'.lits, q ≠ first → q.neg ∈ b.trail.lits := fun q hq hne => by
              obtain ⟨j, hj⟩ := Array.mem_iff_getElem?.1 hq
              rcases j with _ | _ | j
              · exact absurd (Option.some.inj (hj.symm.trans h0)) hne
              · exact Option.some.inj (h1.symm.trans hj) ▸ h.fails
              · exact h.shaped.trail.fails_iff.1 (hfound (j + 2) q (by omega) ((hk _ (by omega)).symm.trans hj))
            dsimp only
            by_cases hvf : b.trail.valueOf first = .fails
            · rw [if_pos hvf]
              have hall : ∀ q ∈ c'.lits, q.neg ∈ b.trail.lits := fun q hq => by
                by_cases hq' : q = first
                · exact hq' ▸ h.shaped.trail.fails_iff.1 hvf
                · exact hfalse q hq hq'
              obtain ⟨hheld, hend⟩ := h'.clash hc' hfirst hall
              exact .pure ⟨hg.trans (grown_finish _), hheld, hend⟩
            · rw [if_neg hvf]
              have hfree : b.trail.valueOf first = .free := by
                cases hx : b.trail.valueOf first with
                | holds => exact absurd hx hv
                | fails => exact absurd hx hvf
                | free => rfl
              rw [assign_eq (b := b.withClauses ds) hfk hfree, ok_bind]
              have ha := h'.assign hfk hfree hc' h0 hfalse
              refine (ih (hkeep ha hc' size_values_pushed (Array.mem_push.2 (.inr rfl)))).imp fun r hr => ?_
              exact hr.of_grown (hg.trans (grown_pushed h'.shaped.trail hfk hfree)) rfl

/-- Put the watchers of `l` back. -/
theorem Held.restore (h : Held Φ l kept b) (hl : l.var < b.trail.values.size) :
    ({ b with watchers := b.watchers.modify l.code (kept ++ ·) } : Board).Valid Φ where
  shaped := h.shaped
  sound := h.sound
  table_size := by simpa using h.table_size
  listed := h.listed
  watched := by
    have hcode : l.code < b.watchers.size := h.table_size ▸ Lit.code_lt_iff.2 hl
    have hrow : b.watchers[l.code].toList = [] := by
      simpa [watchersOf, Array.getD_eq_getD_getElem?, hcode] using h.empty
    refine cast (congrArg (Watched b.store.clauses b.trail.values.size) (funext fun m => ?_)) h.watched
    rw [watchersOf, toList_getD_modify hcode]
    simp only [code_inj, Array.toList_append, hrow, List.append_nil]
    by_cases hm : m = l
    · subst hm
      simp
    · rw [Function.update_of_ne hm, if_neg hm]
      rfl

/-- Take out the watchers of a literal that became false. -/
theorem Board.Valid.takeOut {p : Lit} (h : b.Valid Φ) (hs : Settled b.trail b.store.clauses b.trail.head)
    (hp : b.trail.lits[b.trail.head]? = some p) (n : Nat) :
    Visiting Φ p.neg (b.watchersOf p.neg) #[]
      { b with
        trail := b.trail.advance
        watchers := b.watchers.setIfInBounds p.neg.code #[]
        propagations := n } := by
  have hlt : b.trail.head < b.trail.lits.size := (Array.getElem?_eq_some_iff.1 hp).1
  have hmem : p ∈ b.trail.lits := Array.mem_of_getElem? hp
  have hcode : p.neg.code < b.watchers.size :=
    h.table_size ▸ Lit.code_lt_iff.2 (by simpa using h.shaped.trail.known hmem)
  have hwatchers : ∀ m, ({ b with
      trail := b.trail.advance
      watchers := b.watchers.setIfInBounds p.neg.code #[]
      propagations := n } : Board).watchersOf m = if m = p.neg then [] else b.watchersOf m := fun m => by
    rw [watchersOf, Table.getD_setIfInBounds hcode]
    simp only [code_inj, watchersOf]
    split <;> rfl
  refine ⟨h.shaped.withHead (h.shaped.trail.advance hlt), h.sound.withHead _,
    Array.size_setIfInBounds.trans h.table_size, h.listed, ?_, ?_, fun id c hc m hm hws i hi hlit => ?_,
    by rw [Lit.neg_neg]; exact hmem, ?_⟩
  · rw [hwatchers, if_pos rfl]
  · refine cast (congrArg (Watched b.store.clauses b.trail.values.size) (funext fun m => ?_)) h.watched
    by_cases hm : m = p.neg
    · subst hm
      simp
    · rw [Function.update_of_ne hm, hwatchers, if_neg hm]
  · rcases Nat.lt_succ_iff_lt_or_eq.1 hi with hi | rfl
    · exact hs id c hc m hm i hi hlit
    · -- a clause that watches the literal has a watcher among those taken out
      have hml : m = p.neg := Lit.neg_inj.1 (by rw [Lit.neg_neg]; exact Option.some.inj (hlit.symm.trans hp))
      have hcount := h.watched.count id c hc m
      rw [if_pos hm, hml] at hcount
      obtain ⟨w, hw, hid⟩ := List.countP_pos_iff.1 (by rw [hcount]; exact Nat.one_pos)
      exact absurd (of_decide_eq_true hid) (hws hml w hw)
  · rw [Lit.var_neg]
    exact h.shaped.trail.level_waiting hp (Nat.le_refl _)

/-- What propagation gives. -/
def Propagated (Φ : List (List Lit)) (b : Board) (r : Option Nat × Board) : Prop :=
  Grown b r.2 ∧ r.2.Valid Φ ∧ r.2.trail.head = r.2.trail.lits.size ∧
    match r.1 with
    | none => Settled r.2.trail r.2.store.clauses r.2.trail.lits.size
    | some id => Settled r.2.trail r.2.store.clauses r.2.trail.levelStart ∧
        Conflict r.2.trail r.2.store.clauses id

theorem propagateWithin_gives {fuel : Nat} (h : b.Valid Φ)
    (hs : Settled b.trail b.store.clauses b.trail.head)
    (hfuel : b.trail.values.size < b.trail.head + fuel) :
    Gives (b.propagateWithin fuel) (Propagated Φ b) := by
  induction fuel generalizing b with
  | zero =>
    have := h.shaped.trail.head_le
    have := h.shaped.trail.size_le
    omega
  | succ fuel ih =>
    rw [propagateWithin]
    split
    · next hnext =>
      have hh := Trail.next?_eq_none hnext h.shaped.trail
      exact .ok ⟨.refl b, h, hh, hh ▸ hs⟩
    · next p trail hnext =>
      obtain ⟨hp, rfl⟩ := Trail.next?_eq_some hnext
      have hmem : p ∈ b.trail.lits := Array.mem_of_getElem? hp
      have hpn : p.neg.var < b.trail.values.size := by simpa using h.shaped.trail.known hmem
      have hcode : p.neg.code < b.watchers.size := h.table_size ▸ Lit.code_lt_iff.2 hpn
      have hrow : b.watchers[p.neg.code].toList = b.watchersOf p.neg := by
        simp [watchersOf, Array.getD_eq_getD_getElem?, hcode]
      have hvisit := visit_gives (h.takeOut hs hp (b.propagations + 1))
      dsimp only
      rw [Table.read_of_lt hcode, ok_bind]
      simp only [hrow]
      refine hvisit.bind fun r hr => ?_
      obtain ⟨conflict, kept, b'⟩ := r
      obtain ⟨hg, hheld, hend⟩ := hr
      have hg' : Grown b { b' with watchers := b'.watchers.modify p.neg.code (kept ++ ·) } := ⟨hg.1, hg.2, hg.3,
        hg.4, hg.5, hg.6, hg.7, hg.8, hg.9, hg.10, hg.11⟩
      have hvalid := hheld.restore (by rw [hg.values_size]; exact hpn)
      cases conflict with
      | some id =>
        obtain ⟨hh, hsettled, hconf⟩ := hend
        exact .pure ⟨hg', hvalid, hh, hsettled, hconf⟩
      | none =>
        obtain ⟨hh, hsettled⟩ := hend
        refine (ih hvalid hsettled ?_).imp fun r hr => ⟨hg'.trans hr.1, hr.2⟩
        have hhead : b'.trail.head = b.trail.head + 1 := hh
        have hsize : b'.trail.values.size = b.trail.values.size := hg.values_size
        show b'.trail.values.size < b'.trail.head + fuel
        omega

/-- Propagation ends, with a conflict or with all literals propagated. -/
theorem propagate_gives (h : b.Valid Φ) (hs : Settled b.trail b.store.clauses b.trail.head) :
    Gives b.propagate (Propagated Φ b) :=
  propagateWithin_gives h hs (by simp only [numVars]; omega)

end Countermodels.Sat
