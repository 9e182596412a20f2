import Countermodels.Proofs.Sat.Analyze

/-! Shrinking a learnt clause. A literal may go if it is false whenever the literals that stay are: its
reason leads to marked literals only. The argument runs along the trail, since the premises of a reason
were false before it. -/

namespace Countermodels.Sat.Analysis

open ClauseStore

variable {Φ : List (List Lit)} {t : Trail} {s : ClauseStore} {marks : Array Bool}

/-- All premises of the literal's reason are marked, or fixed at the root level. -/
def Explained (t : Trail) (s : ClauseStore) (marks : Array Bool) (q : Lit) : Prop :=
  ∃ id c, t.reasonOf q.var = some id ∧ Live s.clauses id c ∧ c.lits[0]? = some q.neg ∧
    ∀ r ∈ c.lits, r ≠ q.neg → Marked marks r.var ∨ t.levelOf r.var = 0

theorem Explained.mono {marks' : Array Bool} {q : Lit} (h : Explained t s marks q)
    (hm : ∀ v, Marked marks v → Marked marks' v) : Explained t s marks' q := by
  obtain ⟨id, c, hr, hc, hf, hall⟩ := h
  exact ⟨id, c, hr, hc, hf, fun r hr' hne => (hall r hr' hne).imp_left (hm _)⟩

/-- Every marked literal is one of `ks` or explained. -/
structure Justified (t : Trail) (s : ClauseStore) (marks : Array Bool) (ks : List Lit) : Prop where
  size : marks.size = t.values.size
  fails : ∀ v, Marked marks v → ∃ q : Lit, q.var = v ∧ q.neg ∈ t.lits
  explained : ∀ q : Lit, q.neg ∈ t.lits → Marked marks q.var → q ∈ ks ∨ Explained t s marks q

/-- Marked literals are false where the literals of `ks` are. -/
theorem Justified.follows {ks : List Lit} {σ : Nat → Bool} (hsh : Shaped t s.clauses) (hs : Sound Φ t s.clauses)
    (h : Justified t s marks ks) (hσ : Models Φ σ) (hks : ∀ q ∈ ks, q.holds σ = false) {q : Lit}
    (hq : q.neg ∈ t.lits) (hm : Marked marks q.var) : q.holds σ = false := by
  obtain ⟨i, hi⟩ := Array.mem_iff_getElem?.1 hq
  induction i using Nat.strongRecOn generalizing q with
  | _ i ih =>
    rcases h.explained q hq hm with hq' | ⟨id, c, hr, hc, hf, hall⟩
    · exact hks q hq'
    · obtain ⟨d, hd, -, hrest⟩ := hsh.reason i q.neg id hi (by simpa using hr)
      obtain rfl := hd.unique hc
      obtain ⟨r, hrc, hrσ⟩ := Lit.anyHolds_iff.1 (hs.clause id d hd σ hσ)
      rw [Array.mem_toList_iff] at hrc
      by_cases hrq : r = q.neg
      · rw [hrq, Lit.holds_neg] at hrσ
        simpa using hrσ
      · -- a premise of the reason would be true
        obtain ⟨j, hj, hjr⟩ := hrest r hrc hrq
        have hrt : r.neg ∈ t.lits := Array.mem_of_getElem? hjr
        rcases hall r hrc hrq with hrm | h0
        · simp [ih j hj hrt hrm hjr] at hrσ
        · have := hs.root_holds hσ hrt (by simpa using h0)
          simp [hrσ] at this

theorem Justified.congr {marks' : Array Bool} {ks : List Lit} (h : Justified t s marks ks)
    (hsize : marks'.size = marks.size) (hm : ∀ v, Marked marks' v ↔ Marked marks v) : Justified t s marks' ks :=
  ⟨hsize.trans h.size, fun v hv => h.fails v ((hm v).1 hv), fun q hq hqm =>
    (h.explained q hq ((hm _).1 hqm)).imp_right fun he => he.mono fun v => (hm v).2⟩

theorem size_unmark (marks : Array Bool) (vs : List Nat) : (unmark marks vs).size = marks.size := by
  induction vs generalizing marks with
  | nil => rfl
  | cons v vs ih => exact (ih _).trans Array.size_setIfInBounds

theorem marked_unmark (marks : Array Bool) (vs : List Nat) (v : Nat) :
    Marked (unmark marks vs) v ↔ Marked marks v ∧ v ∉ vs := by
  induction vs generalizing marks with
  | nil => simp [unmark]
  | cons u vs ih =>
    have hstep : Marked (marks.setIfInBounds u false) v ↔ Marked marks v ∧ v ≠ u := by
      rw [Marked, Array.getElem?_setIfInBounds]
      by_cases hv : u = v
      · subst hv
        simp
      · rw [if_neg hv]
        simp [Marked, Ne.symm hv]
    rw [unmark, List.foldl_cons, ← unmark, ih, hstep, List.mem_cons]
    tauto

theorem explained_of_premises {q : Lit} {id : Nat} {c : Clause} {ls : List Lit} (hr : t.reasonOf q.var = some id)
    (hc : Live s.clauses id c) (hcl : c.lits.toList = q.neg :: ls)
    (hls : ∀ r ∈ ls, Marked marks r.var ∨ t.levelOf r.var = 0) : Explained t s marks q := by
  refine ⟨id, c, hr, hc, ?_, fun r hrc hne => hls r ?_⟩
  · rw [← Array.getElem?_toList, hcl]
    rfl
  · rw [← Array.mem_toList_iff, hcl] at hrc
    exact (List.mem_cons.1 hrc).resolve_left hne

/-! One step of reasons. -/

variable {s' : ClauseStore}

theorem anyUncovered_gives (hsh : Shaped t s.clauses) (hm : marks.size = t.values.size) {rs : List Lit}
    (hrs : ∀ r ∈ rs, r.neg ∈ t.lits) :
    Gives (anyUncovered t marks rs) fun b => b = false → ∀ r ∈ rs, Marked marks r.var ∨ t.levelOf r.var = 0 := by
  induction rs with
  | nil => exact .ok fun _ => by simp
  | cons r rs ih =>
    have hr : r.var < t.values.size := by simpa using hsh.trail.known (hrs r List.mem_cons_self)
    rw [anyUncovered]
    refine (read_marks (hm ▸ hr)).bind fun b hb => ?_
    rw [Trail.level_eq_ok (hsh.trail.origins_size ▸ hr), ok_bind]
    split
    · exact .pure fun h => by cases h
    · next hcov =>
      refine (ih fun q hq => hrs q (List.mem_cons_of_mem _ hq)).imp fun b' hb' hf q hq => ?_
      rcases List.mem_cons.1 hq with rfl | hq
      · cases b with
        | true => exact .inl (hb.1 rfl)
        | false => exact .inr (by simpa using hcov)
      · exact hb' hf q hq

theorem keepUncovered_gives (hr : Reweighed s s') (hsh : Shaped t s.clauses) (hm : marks.size = t.values.size)
    {qs : List Lit} (hqs : ∀ q ∈ qs, q.neg ∈ t.lits) :
    Gives (keepUncovered t s' marks qs) fun kept =>
      kept.Sublist qs ∧ ∀ q ∈ qs, q ∈ kept ∨ Explained t s marks q := by
  induction qs with
  | nil => exact .ok ⟨.refl _, by simp⟩
  | cons q qs ih =>
    have hq : q.neg ∈ t.lits := hqs q List.mem_cons_self
    have hqo : q.var < t.origins.size := by simpa using hsh.lt_origins hq
    have hrest : ∀ keep : Bool, (keep = false → Explained t s marks q) →
        Gives (do let rest ← keepUncovered t s' marks qs; return if keep then q :: rest else rest) fun kept =>
          kept.Sublist (q :: qs) ∧ ∀ r ∈ q :: qs, r ∈ kept ∨ Explained t s marks r := fun keep hk => by
      refine (ih fun r hr => hqs r (List.mem_cons_of_mem _ hr)).bind fun rest hrest => .pure ?_
      cases keep with
      | true =>
        refine ⟨hrest.1.cons_cons q, fun r hr => ?_⟩
        rcases List.mem_cons.1 hr with rfl | hr
        · exact .inl List.mem_cons_self
        · exact (hrest.2 r hr).imp_left (List.mem_cons_of_mem _)
      | false =>
        refine ⟨hrest.1.cons q, fun r hr => ?_⟩
        rcases List.mem_cons.1 hr with rfl | hr
        · exact .inr (hk rfl)
        · exact hrest.2 r hr
    rw [keepUncovered, Trail.reason_eq_ok hqo, ok_bind]
    cases hreason : t.reasonOf q.var with
    | none => exact hrest true fun h => by cases h
    | some id =>
      obtain ⟨j, hj⟩ := Array.mem_iff_getElem?.1 hq
      obtain ⟨ls, c, hls, hc, hcl, hprem⟩ := premises_gives hr hsh hj (by simpa using hreason)
      dsimp only
      rw [hls, ok_bind]
      refine (anyUncovered_gives hsh hm fun r hr => ?_).bind fun b hb =>
        hrest b fun hf => explained_of_premises hreason hc hcl (hb hf)
      obtain ⟨k, -, hk⟩ := hprem r hr
      exact Array.mem_of_getElem? hk

/-! Chains of reasons. -/

/-- A climb that started from the marks `m` and the literal `q`; the literals of `todo` are still to be
explained. -/
structure Climbing (t : Trail) (s : ClauseStore) (m : Array Bool) (q : Lit) (todo : List Lit) (c : Climb) : Prop where
  size : c.marks.size = t.values.size
  marked : ∀ v, Marked c.marks v ↔ Marked m v ∨ v ∈ c.fresh
  fresh : ∀ v ∈ c.fresh, ¬ Marked m v ∧ ∃ r : Lit, r.var = v ∧ r.neg ∈ t.lits
  nodup : c.fresh.Nodup
  stack : ∀ r ∈ c.stack, r.neg ∈ t.lits ∧ t.reasonOf r.var ≠ none
  done : ∀ r : Lit, r.neg ∈ t.lits → r = q ∨ r.var ∈ c.fresh → r ∈ todo ∨ Explained t s c.marks r

variable {m : Array Bool} {q : Lit} {todo : List Lit} {c : Climb}

/-- No more variables are marked than there are. -/
theorem Climbing.length_fresh_le (ht : t.Valid) (h : Climbing t s m q todo c) :
    c.fresh.length ≤ t.values.size := by
  have hsub : c.fresh ⊆ List.range t.values.size := fun v hv => by
    obtain ⟨-, r, rfl, hr⟩ := h.fresh v hv
    simpa using ht.known hr
  simpa using (List.subperm_of_subset h.nodup hsub).length_le

/-- A premise is marked, and has to be explained. -/
theorem Climbing.push (ht : t.Valid) (h : Climbing t s m q todo c) {r : Lit} (hr : r.neg ∈ t.lits)
    (hm : ¬ Marked c.marks r.var) (hreason : t.reasonOf r.var ≠ none) :
    Climbing t s m q (r :: todo)
      { stack := r :: c.stack, fresh := r.var :: c.fresh, marks := c.marks.setIfInBounds r.var true } := by
  have hrn : r.var < c.marks.size := by simpa [h.size] using ht.known hr
  have hmarks : ∀ v, Marked (c.marks.setIfInBounds r.var true) v ↔ v = r.var ∨ Marked c.marks v := fun v => by
    rw [marked_set hrn]
    by_cases hv : v = r.var <;> simp [hv]
  refine ⟨by simpa using h.size, fun v => ?_, fun v hv => ?_, ?_, fun p hp => ?_, fun p hp hpq => ?_⟩
  · rw [hmarks, h.marked, List.mem_cons]
    tauto
  · rcases List.mem_cons.1 hv with rfl | hv
    · exact ⟨fun hm' => hm ((h.marked _).2 (.inl hm')), r, rfl, hr⟩
    · exact h.fresh v hv
  · exact List.nodup_cons.2 ⟨fun hv => hm ((h.marked _).2 (.inr hv)), h.nodup⟩
  · rcases List.mem_cons.1 hp with rfl | hp
    · exact ⟨hr, hreason⟩
    · exact h.stack p hp
  · by_cases hpr : p.var = r.var
    · exact .inl (eq_of_false ht hp hr hpr ▸ List.mem_cons_self)
    · have hold : p = q ∨ p.var ∈ c.fresh := hpq.imp_right fun hpf => (List.mem_cons.1 hpf).resolve_left hpr
      refine (h.done p hp hold).imp (List.mem_cons_of_mem _) fun he => he.mono fun v hv => (hmarks v).2 (.inr hv)

theorem explain_gives (ht : t.Valid) {levels : Nat} {rs : List Lit} (h : Climbing t s m q todo c)
    (hrs : ∀ r ∈ rs, r.neg ∈ t.lits) :
    Gives (explain t levels rs c) fun x => ∃ new, x.2.stack = new ++ c.stack ∧
      x.2.fresh.length = new.length + c.fresh.length ∧ Climbing t s m q (new ++ todo) x.2 ∧
      (∀ v, Marked c.marks v → Marked x.2.marks v) ∧
      (x.1 = true → ∀ r ∈ rs, Marked x.2.marks r.var ∨ t.levelOf r.var = 0) := by
  induction rs generalizing c todo with
  | nil => exact .ok ⟨[], rfl, by simp, h, fun _ => id, fun _ => by simp⟩
  | cons r rs ih =>
    have hr : r.neg ∈ t.lits := hrs r List.mem_cons_self
    have hrn : r.var < t.values.size := by simpa using ht.known hr
    have hrs' : ∀ p ∈ rs, p.neg ∈ t.lits := fun p hp => hrs p (List.mem_cons_of_mem _ hp)
    rw [explain]
    refine (read_marks (h.size ▸ hrn)).bind fun b hb => ?_
    rw [Trail.level_eq_ok (ht.origins_size ▸ hrn), ok_bind]
    split
    · next hcov =>
      refine (ih h hrs').imp fun x hx => ?_
      obtain ⟨new, hstack, hfresh, hclimb, hmono, hall⟩ := hx
      refine ⟨new, hstack, hfresh, hclimb, hmono, fun ht p hp => ?_⟩
      rcases List.mem_cons.1 hp with rfl | hp
      · cases b with
        | true => exact .inl (hmono _ (hb.1 rfl))
        | false => exact .inr (by simpa using hcov)
      · exact hall ht p hp
    · next hcov =>
      rw [Trail.reason_eq_ok (ht.origins_size ▸ hrn), ok_bind, levelBit, Trail.level_eq_ok (ht.origins_size ▸ hrn)]
      simp only [ok_bind, pure_bind]
      split
      · next hgo =>
        have hunmarked : ¬ Marked c.marks r.var := fun hm => hcov (by simp [hb.2 hm])
        have hreason : t.reasonOf r.var ≠ none := fun hn => by simp [hn] at hgo
        refine (ih (h.push ht hr hunmarked hreason) hrs').imp fun x hx => ?_
        obtain ⟨new, hstack, hfresh, hclimb, hmono, hall⟩ := hx
        have hmono' : ∀ v, Marked c.marks v ∨ v = r.var → Marked x.2.marks v := fun v hv => hmono v <| by
          rw [marked_set (h.size ▸ hrn)]
          split
          · rfl
          · next hne => exact hv.resolve_right hne
        refine ⟨new ++ [r], by simp [hstack], by simp [hfresh]; omega, by simpa using hclimb,
          fun v hv => hmono' v (.inl hv), fun ht p hp => ?_⟩
        rcases List.mem_cons.1 hp with rfl | hp
        · exact .inl (hmono' _ (.inr rfl))
        · exact hall ht p hp
      · exact .pure ⟨[], rfl, by simp, h, fun _ => id, fun h => by cases h⟩

/-- A climb that succeeds has explained everything; one that fails has only marked fresh variables. -/
theorem climb_gives (hr : Reweighed s s') (hsh : Shaped t s.clauses) {levels fuel : Nat}
    (h : Climbing t s m q c.stack c) (hfuel : t.values.size + 1 + c.stack.length ≤ fuel + c.fresh.length) :
    Gives (climb t s' levels fuel c) fun x => ∃ todo, Climbing t s m q todo x.2 ∧ (x.1 = true → todo = []) := by
  induction fuel generalizing c with
  | zero =>
    have := h.length_fresh_le hsh.trail
    omega
  | succ fuel ih =>
    rw [climb]
    split
    · next hstack => exact .ok ⟨c.stack, h, fun _ => hstack⟩
    · next r stack hstack =>
      obtain ⟨hrt, hreason⟩ := h.stack r (by simp [hstack])
      obtain ⟨id, hid⟩ := Option.ne_none_iff_exists'.1 hreason
      obtain ⟨j, hj⟩ := Array.mem_iff_getElem?.1 hrt
      obtain ⟨ls, d, hls, hd, hdl, hprem⟩ := premises_gives hr hsh hj (by simpa using hid)
      have hro : r.var < t.origins.size := by simpa using hsh.lt_origins hrt
      have hpopped : Climbing t s m q c.stack { c with stack } :=
        ⟨h.size, h.marked, h.fresh, h.nodup, fun p hp => h.stack p (by simp [hstack, hp]), h.done⟩
      rw [Trail.reason_eq_ok hro, ok_bind, hid]
      dsimp only
      rw [hls, ok_bind]
      refine (explain_gives hsh.trail hpopped fun p hp => ?_).bind fun x hx => ?_
      · obtain ⟨k, -, hk⟩ := hprem p hp
        exact Array.mem_of_getElem? hk
      · obtain ⟨explained, c'⟩ := x
        obtain ⟨new, hstack', hfresh, hclimb, hmono, hall⟩ := hx
        cases explained with
        | false => exact .pure ⟨_, hclimb, fun h => by cases h⟩
        | true =>
          -- the literal that was taken from the stack is explained now
          have hexp : Explained t s c'.marks r := explained_of_premises hid hd hdl (hall rfl)
          refine ih ⟨hclimb.size, hclimb.marked, hclimb.fresh, hclimb.nodup, hclimb.stack, fun p hp hpq => ?_⟩ ?_
          · rcases hclimb.done p hp hpq with hp' | hp'
            · rw [hstack] at hp'
              rw [show c'.stack = new ++ stack from hstack']
              simp only [List.mem_append, List.mem_cons] at hp' ⊢
              rcases hp' with hp' | rfl | hp'
              · exact .inl (.inl hp')
              · exact .inr hexp
              · exact .inl (.inr hp')
            · exact .inr hp'
          · have h1 : c'.stack = new ++ stack := hstack'
            have h2 : c'.fresh.length = new.length + c.fresh.length := hfresh
            rw [hstack] at hfuel
            simp only [h1, h2, List.length_append, List.length_cons] at hfuel ⊢
            omega

/-- A climb starts at a marked literal. -/
theorem Climbing.start (hm : m.size = t.values.size) (hq : q.neg ∈ t.lits) (hr : t.reasonOf q.var ≠ none) :
    Climbing t s m q [q] { stack := [q], marks := m } where
  size := hm
  marked v := by simp
  fresh := by simp
  nodup := List.nodup_nil
  stack r hrm := List.mem_singleton.1 hrm ▸ ⟨hq, hr⟩
  done r _ hrq := .inl (by simpa using hrq)

/-- A literal that a climb has explained may go. -/
theorem Justified.drop {ks qs : List Lit} (h : Justified t s m (ks ++ q :: qs)) (hc : Climbing t s m q [] c) :
    Justified t s c.marks (ks ++ qs) := by
  refine ⟨hc.size, fun v hv => ?_, fun r hr hrm => ?_⟩
  · rcases (hc.marked v).1 hv with hv | hv
    · exact h.fails v hv
    · exact (hc.fresh v hv).2
  · by_cases hrq : r = q
    · exact (hc.done r hr (.inl hrq)).imp_left (absurd · List.not_mem_nil)
    · rcases (hc.marked _).1 hrm with hrm | hrm
      · rcases h.explained r hr hrm with hrk | he
        · left
          simp only [List.mem_append, List.mem_cons] at hrk ⊢
          tauto
        · exact .inr (he.mono fun v hv => (hc.marked v).2 (.inl hv))
      · exact (hc.done r hr (.inr hrm)).imp_left (absurd · List.not_mem_nil)

/-- What shrinking a list of marked literals gives: some of them, and marks that explain the others. -/
structure Shrunk (t : Trail) (s : ClauseStore) (m₀ : Array Bool) (ks qs : List Lit)
    (r : List Lit × List Nat × Array Bool) : Prop where
  sublist : r.1.Sublist qs
  justified : Justified t s r.2.2 (ks ++ r.1)
  marked : ∀ v, Marked r.2.2 v ↔ Marked m₀ v ∨ v ∈ r.2.1

theorem keepIndependent_gives (hr : Reweighed s s') (hsh : Shaped t s.clauses) {levels : Nat} {m₀ : Array Bool}
    {ks qs : List Lit} {fresh : List Nat} (hqs : ∀ q ∈ qs, q.neg ∈ t.lits) (h : Justified t s marks (ks ++ qs))
    (hm : ∀ v, Marked marks v ↔ Marked m₀ v ∨ v ∈ fresh) :
    Gives (keepIndependent t s' levels qs fresh marks) fun r => Shrunk t s m₀ ks qs r ∧
      ∀ v, Marked marks v → Marked r.2.2 v := by
  induction qs generalizing ks fresh marks with
  | nil => exact .ok ⟨⟨.refl _, h, hm⟩, fun _ => id⟩
  | cons q qs ih =>
    have hq : q.neg ∈ t.lits := hqs q List.mem_cons_self
    have hqo : q.var < t.origins.size := by simpa using hsh.lt_origins hq
    have hqs' : ∀ r ∈ qs, r.neg ∈ t.lits := fun r hr => hqs r (List.mem_cons_of_mem _ hr)
    -- the literal stays, and the others are shrunk under marks that say the same
    have hkeep : ∀ marks' : Array Bool, marks'.size = marks.size → (∀ v, Marked marks' v ↔ Marked marks v) →
        Gives (keepIndependent t s' levels qs fresh marks' >>= fun r => pure (q :: r.1, r.2.1, r.2.2)) fun r => Shrunk t s m₀ ks (q :: qs) r ∧
              ∀ v, Marked marks v → Marked r.2.2 v := fun marks' hsize hmarks => by
      have hj : Justified t s marks' ((ks ++ [q]) ++ qs) := by
        rw [List.append_assoc]
        exact h.congr hsize hmarks
      refine (ih hqs' hj fun v => (hmarks v).trans (hm v)).bind fun r hr => ?_
      obtain ⟨hr, hmono⟩ := hr
      refine .pure ⟨⟨?_, ?_, ?_⟩, ?_⟩
      · exact hr.sublist.cons_cons q
      · have := hr.justified
        rwa [List.append_assoc] at this
      · exact hr.marked
      · exact fun v hv => hmono v ((hmarks v).2 hv)
    rw [keepIndependent, Trail.reason_eq_ok hqo, ok_bind]
    split
    · exact hkeep marks rfl fun _ => Iff.rfl
    · next hsome =>
      have hreason : t.reasonOf q.var ≠ none := fun hn => hsome (by simp [hn])
      refine (climb_gives hr hsh (Climbing.start h.size hq hreason) (by simp [h.size])).bind fun x hx => ?_
      obtain ⟨follows, c⟩ := x
      obtain ⟨todo, hc, htodo⟩ := hx
      cases follows with
      | true =>
        obtain rfl := htodo rfl
        refine (ih hqs' (h.drop hc) fun v => ?_).imp fun r hr =>
          ⟨⟨hr.1.sublist.cons q, hr.1.justified, hr.1.marked⟩, fun v hv => hr.2 v ((hc.marked v).2 (.inl hv))⟩
        rw [hc.marked, hm, List.mem_append]
        tauto
      | false =>
        refine hkeep (unmark c.marks c.fresh) (by rw [size_unmark, hc.size, h.size]) fun v => ?_
        rw [marked_unmark, hc.marked]
        have := fun hv => (hc.fresh v hv).1
        tauto

theorem levelBits_gives (ht : t.Valid) {qs : List Lit} (hqs : ∀ q ∈ qs, q.neg ∈ t.lits) :
    Gives (levelBits t qs) fun _ => True := by
  induction qs with
  | nil => exact .ok trivial
  | cons q qs ih =>
    have hqo : q.var < t.origins.size := by simpa [ht.origins_size] using ht.known (hqs q List.mem_cons_self)
    rw [levelBits, levelBit, Trail.level_eq_ok hqo]
    exact (ih fun r hr => hqs r (List.mem_cons_of_mem _ hr)).bind fun _ _ => .pure trivial

/-- Shrinking keeps what the clause says, and clears all marks. -/
theorem minimize_gives (hr : Reweighed s s') (hsh : Shaped t s.clauses) (hs : Sound Φ t s.clauses)
    {mode : Minimization} {lits : List Lit} (hlits : ∀ q ∈ lits, q.neg ∈ t.lits) (hsize : marks.size = t.values.size)
    (hm : ∀ v, Marked marks v ↔ v ∈ lits.map Lit.var) :
    Gives (minimize mode t s' lits marks) fun r => r.1.Sublist lits ∧ (mode = .none → r.1 = lits) ∧
      r.2.size = t.values.size ∧ (∀ v, ¬ Marked r.2 v) ∧
      ∀ σ, Models Φ σ → (∀ q ∈ r.1, q.holds σ = false) → ∀ q ∈ lits, q.holds σ = false := by
  have hfails : ∀ v, Marked marks v → ∃ q : Lit, q.var = v ∧ q.neg ∈ t.lits := fun v hv => by
    obtain ⟨q, hq, hqv⟩ := List.mem_map.1 ((hm v).1 hv)
    exact ⟨q, hqv, hlits q hq⟩
  have hmem : ∀ q : Lit, q.neg ∈ t.lits → Marked marks q.var → q ∈ lits := fun q hq hqm => by
    obtain ⟨r, hr, hrv⟩ := List.mem_map.1 ((hm _).1 hqm)
    exact eq_of_false hsh.trail (hlits r hr) hq hrv ▸ hr
  have hclear : ∀ v, ¬ Marked (unmark marks (lits.map Lit.var)) v := fun v hv => by
    rw [marked_unmark] at hv
    exact hv.2 ((hm v).1 hv.1)
  have hmarked : ∀ q ∈ lits, Marked marks q.var := fun q hq => (hm _).2 (List.mem_map_of_mem hq)
  unfold minimize
  cases mode with
  | none => exact .pure ⟨.refl _, fun _ => rfl, by rw [size_unmark, hsize], hclear, fun _ _ h => h⟩
  | direct =>
    refine (keepUncovered_gives hr hsh hsize hlits).bind fun kept hkept =>
      .pure ⟨hkept.1, fun h => (by cases h), by rw [size_unmark, hsize], hclear, fun σ hσ hk q hq => ?_⟩
    have hj : Justified t s marks kept := ⟨hsize, hfails, fun q hq hqm => hkept.2 q (hmem q hq hqm)⟩
    exact hj.follows hsh hs hσ hk (hlits q hq) (hmarked q hq)
  | deep =>
    refine (levelBits_gives hsh.trail hlits).bind fun levels _ => ?_
    have hj : Justified t s marks ([] ++ lits) := ⟨hsize, hfails, fun q hq hqm => .inl (hmem q hq hqm)⟩
    refine (keepIndependent_gives hr hsh hlits hj
      (show ∀ v, Marked marks v ↔ Marked marks v ∨ v ∈ [] by simp)).bind fun r hr' => ?_
    obtain ⟨kept, fresh, marks'⟩ := r
    obtain ⟨⟨hsub, hjust, hmk⟩, hmono⟩ := hr'
    refine .pure ⟨hsub, fun h => (by cases h), ?_, fun v hv => ?_, fun σ hσ hk q hq => ?_⟩
    · rw [size_unmark, size_unmark]
      exact hjust.size
    · rw [marked_unmark, marked_unmark] at hv
      rcases (hmk v).1 hv.1.1 with h | h
      · exact hv.2 ((hm v).1 h)
      · exact hv.1.2 h
    · exact hjust.follows hsh hs hσ hk (hlits q hq) (hmono _ (hmarked q hq))

end Countermodels.Sat.Analysis
