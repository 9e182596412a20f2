import Countermodels.Proofs.Sat.Store
import Countermodels.Proofs.Sat.VarOrder
import Countermodels.Sat.Analyze

/-! Conflict analysis. The walk back along the trail keeps a clause that follows from the given clauses:
the literals of lower levels that were met, and those of the current level that are marked. Replacing
one of the latter by the premises of its reason is a resolution step. -/

namespace Countermodels.Sat

open ClauseStore

/-- A variable is marked. -/
def Marked (marks : Array Bool) (v : Nat) : Prop := marks[v]? = some true

theorem read_marks {marks : Array Bool} {v : Nat} (h : v < marks.size) :
    Gives (Table.read marks v) fun r => r = true ↔ Marked marks v := by
  refine ⟨marks[v], Table.read_of_lt h, ?_⟩
  rw [Marked, Array.getElem?_eq_getElem h, Option.some.injEq]

theorem marked_set {marks : Array Bool} {v u : Nat} {m : Bool} (h : v < marks.size) :
    Marked (marks.setIfInBounds v m) u ↔ if u = v then m = true else Marked marks u := by
  rw [Marked, Array.getElem?_setIfInBounds]
  by_cases hu : u = v
  · subst hu
    simp [h]
  · rw [if_neg (Ne.symm hu), if_neg hu, Marked]

namespace Analysis

/-- An analysis with the literals `os` of the current level open, all among the first `i` of the trail.
Together with the lower literals and the literals `rest`, which are still to be met, they form a clause
that follows from `Φ`. -/
structure Walking (Φ : List (List Lit)) (t : Trail) (o : VarOrder) (s : ClauseStore) (i : Nat)
    (os rest : List Lit) (a : Analysis) : Prop where
  order : a.order.Valid t.values.size
  has : ∀ v, a.order.Has v ↔ o.Has v
  store : Reweighed s a.store
  size : a.marks.size = t.values.size
  lower : ∀ q ∈ a.lower.toList, q.neg ∈ t.lits ∧ 0 < t.levelOf q.var ∧ t.levelOf q.var < t.depth
  opened : ∀ q ∈ os, t.levelOf q.var = t.depth ∧ ∃ j < i, t.lits[j]? = some q.neg
  distinct : ((a.lower.toList ++ os).map Lit.var).Nodup
  marked : ∀ v, Marked a.marks v ↔ v ∈ (a.lower.toList ++ os).map Lit.var
  pending : a.pending = os.length
  entailed : Entails Φ (a.lower.toList ++ os ++ rest)

variable {Φ : List (List Lit)} {t : Trail} {o : VarOrder} {s : ClauseStore} {i : Nat} {os rest : List Lit}
  {a : Analysis} {q : Lit}

/-- Two false literals of one variable are the same. -/
theorem eq_of_false (ht : t.Valid) {p : Lit} (hp : p.neg ∈ t.lits) (hq : q.neg ∈ t.lits) (hv : p.var = q.var) :
    p = q := by
  rcases Lit.eq_or_eq_neg_of_var_eq hv with h | h
  · exact h
  · rw [h, Lit.neg_neg] at hp
    exact absurd hq (ht.not_mem_neg hp)

/-- A literal that is already part of the clause, or false at the root level, need not be met. -/
theorem Walking.skip (h : Walking Φ t o s i os (q :: rest) a)
    (hq : q ∈ a.lower.toList ++ os ∨ ∀ σ, Models Φ σ → q.holds σ = false) : Walking Φ t o s i os rest a := by
  refine ⟨h.order, h.has, h.store, h.size, h.lower, h.opened, h.distinct, h.marked, h.pending, fun σ hσ => ?_⟩
  obtain ⟨p, hp, hpσ⟩ := Lit.anyHolds_iff.1 (h.entailed σ hσ)
  refine Lit.anyHolds_iff.2 ⟨p, ?_, hpσ⟩
  rcases List.mem_append.1 hp with hp | hp
  · exact List.mem_append_left _ hp
  · rcases List.mem_cons.1 hp with rfl | hp
    · rcases hq with hq | hq
      · exact List.mem_append_left _ hq
      · simp [hq σ hσ] at hpσ
    · exact List.mem_append_right _ hp

/-- A literal joins the clause, and its variable is marked. -/
theorem Walking.join {order' : VarOrder} (lower' : Array Lit) {os' : List Lit} {n : Nat}
    (h : Walking Φ t o s i os (q :: rest) a) (horder : order'.Valid t.values.size)
    (hhas : ∀ v, order'.Has v ↔ o.Has v) (hqn : q.var < t.values.size)
    (hunmarked : q.var ∉ (a.lower.toList ++ os).map Lit.var)
    (hperm : (lower'.toList ++ os').Perm (q :: (a.lower.toList ++ os)))
    (hlower : ∀ p ∈ lower'.toList, p.neg ∈ t.lits ∧ 0 < t.levelOf p.var ∧ t.levelOf p.var < t.depth)
    (hopened : ∀ p ∈ os', t.levelOf p.var = t.depth ∧ ∃ j < i, t.lits[j]? = some p.neg) (hn : n = os'.length) :
    Walking Φ t o s i os' rest
      { a with order := order', marks := a.marks.setIfInBounds q.var true, lower := lower', pending := n } := by
  refine ⟨horder, hhas, h.store, by simpa using h.size, hlower, hopened, ?_, fun v => ?_, hn, ?_⟩
  · rw [(hperm.map Lit.var).nodup_iff, List.map_cons, List.nodup_cons]
    exact ⟨hunmarked, h.distinct⟩
  · rw [marked_set (h.size ▸ hqn), (hperm.map Lit.var).mem_iff, List.map_cons, List.mem_cons]
    by_cases hv : v = q.var
    · simp [hv]
    · rw [if_neg hv, h.marked]
      simp [hv]
  · refine h.entailed.mono fun p hp => ?_
    rcases List.mem_append.1 hp with hp | hp
    · exact List.mem_append_left _ (hperm.mem_iff.2 (List.mem_cons_of_mem _ hp))
    · rcases List.mem_cons.1 hp with rfl | hp
      · exact List.mem_append_left _ (hperm.mem_iff.2 List.mem_cons_self)
      · exact List.mem_append_right _ hp

theorem meet_gives {cs : Array Clause} (ht : t.Valid) (hs : Sound Φ t cs) (hd : 0 < t.depth)
    (h : Walking Φ t o s i os (q :: rest) a) (hq : ∃ j < i, t.lits[j]? = some q.neg) :
    Gives (meet t a q) fun a' => ∃ os', Walking Φ t o s i os' rest a' ∧ os ⊆ os' ∧
      (t.levelOf q.var = t.depth → q ∈ os') := by
  obtain ⟨j, hji, hj⟩ := hq
  have hqt : q.neg ∈ t.lits := Array.mem_of_getElem? hj
  have hqn : q.var < t.values.size := by simpa using ht.known hqt
  have hqm : q.var < a.marks.size := h.size ▸ hqn
  unfold meet
  refine (read_marks hqm).bind fun r hr => ?_
  cases r with
  | true =>
    -- the variable is marked, so the literal itself is part of the clause
    obtain ⟨p, hp, hpv⟩ := List.mem_map.1 ((h.marked q.var).1 (hr.1 rfl))
    have hpt : p.neg ∈ t.lits := by
      rcases List.mem_append.1 hp with hp | hp
      · exact (h.lower p hp).1
      · obtain ⟨-, k, -, hk⟩ := h.opened p hp
        exact Array.mem_of_getElem? hk
    obtain rfl := eq_of_false ht hpt hqt hpv
    refine .pure ⟨os, h.skip (.inl hp), List.Subset.refl _, fun hlev => ?_⟩
    rcases List.mem_append.1 hp with hp | hp
    · exact absurd (h.lower p hp).2.2 (by omega)
    · exact hp
  | false =>
    have hunmarked : q.var ∉ (a.lower.toList ++ os).map Lit.var := fun hm => by
      simpa using hr.2 ((h.marked q.var).2 hm)
    rw [if_neg (by decide), Trail.level_eq_ok (ht.origins_size ▸ hqn), ok_bind]
    split
    · next h0 =>
      refine .pure ⟨os, h.skip (.inr fun σ hσ => ?_), List.Subset.refl _, fun hlev => by omega⟩
      have := hs.root_holds hσ hqt (by simpa using h0)
      simpa using this
    · next h0 =>
      refine (VarOrder.bump_gives h.order hqn).bind fun order' horder => ?_
      have hhas : ∀ v, order'.Has v ↔ o.Has v := fun v => (horder.2 v).trans (h.has v)
      split
      · next hlev =>
        have hlevel : t.levelOf q.var = t.depth := Nat.le_antisymm (by simpa using ht.level_le_depth hqt) hlev
        refine .pure ⟨os ++ [q], h.join a.lower horder.1 hhas hqn hunmarked ?_ h.lower
          (fun p hp => ?_) (by simp [h.pending]), List.subset_append_left .., fun _ => by simp⟩
        · rw [← List.append_assoc]
          exact List.perm_append_singleton ..
        · rcases List.mem_append.1 hp with hp | hp
          · exact h.opened p hp
          · obtain rfl := List.mem_singleton.1 hp
            exact ⟨hlevel, j, hji, hj⟩
      · next hlev =>
        refine .pure ⟨os, h.join (a.lower.push q) horder.1 hhas hqn hunmarked ?_ (fun p hp => ?_) h.opened
          h.pending, List.Subset.refl _, fun h => absurd (Nat.le_of_eq h.symm) hlev⟩
        · rw [Array.toList_push, List.append_assoc]
          exact List.perm_middle
        · rcases Array.mem_push.1 (Array.mem_toList_iff.1 hp) with hp | rfl
          · exact h.lower p (Array.mem_toList_iff.2 hp)
          · exact ⟨hqt, by omega, by omega⟩

theorem meets_gives {cs : Array Clause} {qs : List Lit} (ht : t.Valid) (hs : Sound Φ t cs) (hd : 0 < t.depth)
    (h : Walking Φ t o s i os qs a) (hqs : ∀ q ∈ qs, ∃ j < i, t.lits[j]? = some q.neg) :
    Gives (qs.foldlM (meet t) a) fun a' => ∃ os', Walking Φ t o s i os' [] a' ∧ os ⊆ os' ∧
      ∀ q ∈ qs, t.levelOf q.var = t.depth → q ∈ os' := by
  induction qs generalizing a os with
  | nil => exact .pure ⟨os, h, List.Subset.refl _, by simp⟩
  | cons q qs ih =>
    rw [List.foldlM_cons]
    refine (meet_gives ht hs hd h (hqs q List.mem_cons_self)).bind fun a' ha' => ?_
    obtain ⟨os', h', hsub, hmem⟩ := ha'
    refine (ih h' fun p hp => hqs p (List.mem_cons_of_mem _ hp)).imp fun a'' ha'' => ?_
    obtain ⟨os'', h'', hsub', hmem'⟩ := ha''
    refine ⟨os'', h'', List.Subset.trans hsub hsub', fun p hp hlev => ?_⟩
    rcases List.mem_cons.1 hp with rfl | hp
    · exact hsub' (hmem hlev)
    · exact hmem' p hp hlev

theorem premises_eq {s' : ClauseStore} {id : Nat} {c : Clause} {p : Lit} (hr : Reweighed s s')
    (hc : Live s.clauses id c) (hp : c.lits[0]? = some p) :
    ∃ ls, premises s' id = .ok ls ∧ c.lits.toList = p :: ls := by
  obtain ⟨d, hd, hdc⟩ := hr.alike.symm.live hc
  have hlits := hr.lits_eq hc hd
  obtain ⟨ls, hls⟩ : ∃ ls, c.lits.toList = p :: ls := by
    rw [← Array.getElem?_toList] at hp
    cases hl : c.lits.toList with
    | nil => rw [hl] at hp; cases hp
    | cons m ms =>
      rw [hl] at hp
      exact ⟨ms, by rw [Option.some.inj hp]⟩
  refine ⟨ls, ?_, hls⟩
  rw [premises, Table.read_of_some hd.1, ok_bind, hlits, hls]
  rfl

/-- The premises of a reason are the other literals of the clause, false before its first. -/
theorem premises_gives {s' : ClauseStore} {id j : Nat} {p : Lit} (hr : Reweighed s s')
    (hsh : Shaped t s.clauses) (hj : t.lits[j]? = some p) (hid : t.reasonOf p.var = some id) :
    ∃ ls c, premises s' id = .ok ls ∧ Live s.clauses id c ∧ c.lits.toList = p :: ls ∧
      ∀ r ∈ ls, ∃ k < j, t.lits[k]? = some r.neg := by
  obtain ⟨c, hc, hfirst, hrest⟩ := hsh.reason j p id hj hid
  obtain ⟨ls, hls, hcl⟩ := premises_eq hr hc hfirst
  refine ⟨ls, c, hls, hc, hcl, fun r hrm => hrest r ?_ ?_⟩
  · rw [← Array.mem_toList_iff, hcl]
    exact List.mem_cons_of_mem _ hrm
  · have := hsh.nodup id c hc
    rw [hcl, List.nodup_cons] at this
    exact fun he => this.1 (he ▸ hrm)

/-- The first literal of a level is the only one of the current level that has no reason. -/
theorem first_of_level (hsh : Shaped t s.clauses) (hd : 0 < t.depth) {j k : Nat} {p r : Lit}
    (hj : t.lits[j]? = some p) (hlev : t.levelOf p.var = t.depth) (hreason : t.reasonOf p.var = none)
    (hk : t.lits[k]? = some r) (hkl : t.levelOf r.var = t.depth) : j ≤ k := by
  rcases hsh.decision j p hj hreason with h0 | hm
  · rw [← hsh.trail.level_eq j p hj] at h0
    omega
  · by_contra hlt
    -- a level that starts at `j` does not count for earlier places
    obtain ⟨m, hm⟩ := Array.mem_iff_getElem?.1 hm
    have h1 : t.levelAt k ≤ m := (hsh.trail.levelAt_le_iff hm).2 (by omega)
    have h2 : ¬ t.levelAt j ≤ m := fun h => by
      have := (hsh.trail.levelAt_le_iff hm).1 h
      omega
    rw [hsh.trail.level_eq j p hj] at hlev
    rw [hsh.trail.level_eq k r hk] at hkl
    omega

/-- The walk ends with a clause that has one literal of the current level. -/
structure Cut (Φ : List (List Lit)) (t : Trail) (o : VarOrder) (s : ClauseStore) (p : Lit) (a : Analysis) : Prop where
  walking : Walking Φ t o s t.lits.size [] [p.neg] a
  mem : p ∈ t.lits
  level : t.levelOf p.var = t.depth

/-- An open literal is taken out of the open ones. -/
theorem Walking.close {p : Lit} {s' : ClauseStore} (h : Walking Φ t o s (i + 1) os [] a)
    (hp : t.lits[i]? = some p) (hpn : p.var < t.values.size) (hmem : p.neg ∈ os) (hs' : Reweighed s s') :
    Walking Φ t o s i (os.erase p.neg) [p.neg]
      { a with marks := a.marks.setIfInBounds p.var false, pending := a.pending - 1, store := s' } := by
  have hperm : (a.lower.toList ++ os).Perm (p.neg :: (a.lower.toList ++ os.erase p.neg)) :=
    ((List.perm_cons_erase hmem).append_left _).trans List.perm_middle
  have hdistinct := h.distinct
  rw [(hperm.map Lit.var).nodup_iff, List.map_cons, List.nodup_cons, Lit.var_neg] at hdistinct
  refine ⟨h.order, h.has, hs', by simpa using h.size, h.lower, fun q hq => ?_, hdistinct.2, fun v => ?_, ?_, ?_⟩
  · obtain ⟨hlev, j, hj, hjq⟩ := h.opened q (List.mem_of_mem_erase hq)
    refine ⟨hlev, j, ?_, hjq⟩
    rcases Nat.lt_succ_iff_lt_or_eq.1 hj with hj | rfl
    · exact hj
    · have hpq := Option.some.inj (hp.symm.trans hjq)
      have hvar : p.var = q.var := by rw [hpq, Lit.var_neg]
      exact absurd (List.mem_map.2 ⟨q, List.mem_append_right _ hq, hvar.symm⟩) hdistinct.1
  · rw [marked_set (h.size ▸ hpn)]
    split
    · next hv => exact ⟨fun hm => (by cases hm), fun hm => absurd (hv ▸ hm) hdistinct.1⟩
    · next hv =>
      rw [h.marked, (hperm.map Lit.var).mem_iff, List.map_cons, List.mem_cons, Lit.var_neg]
      exact ⟨fun hm => hm.resolve_left hv, .inr⟩
  · rw [h.pending, List.length_erase_of_mem hmem]
  · refine h.entailed.mono fun q hq => ?_
    rw [List.append_nil] at hq
    rcases List.mem_cons.1 (hperm.mem_iff.1 hq) with rfl | hq
    · exact List.mem_append_right _ (List.mem_singleton_self _)
    · exact List.mem_append_left _ hq

/-- Resolution with the reason of a literal. -/
theorem Walking.resolve {p : Lit} {id : Nat} {c : Clause} {ls : List Lit} (h : Walking Φ t o s i os [p.neg] a)
    (hs : Sound Φ t s.clauses) (hc : Live s.clauses id c) (hls : c.lits.toList = p :: ls) :
    Walking Φ t o s i os ls a := by
  refine ⟨h.order, h.has, h.store, h.size, h.lower, h.opened, h.distinct, h.marked, h.pending, fun σ hσ => ?_⟩
  obtain ⟨q, hq, hqσ⟩ := Lit.anyHolds_iff.1 (h.entailed σ hσ)
  rcases List.mem_append.1 hq with hq | hq
  · exact Lit.anyHolds_iff.2 ⟨q, List.mem_append_left _ hq, hqσ⟩
  · rw [List.mem_singleton.1 hq, Lit.holds_neg] at hqσ
    obtain ⟨r, hr, hrσ⟩ := Lit.anyHolds_iff.1 (hs.clause id c hc σ hσ)
    rw [hls] at hr
    rcases List.mem_cons.1 hr with rfl | hr
    · simp [hrσ] at hqσ
    · exact Lit.anyHolds_iff.2 ⟨r, List.mem_append_right _ hr, hrσ⟩

/-- The last literal of the walk is passed over when it is not marked. -/
theorem Walking.pass {p : Lit} (h : Walking Φ t o s (i + 1) os rest a) (hp : t.lits[i]? = some p)
    (hunmarked : ¬ Marked a.marks p.var) : Walking Φ t o s i os rest a := by
  refine ⟨h.order, h.has, h.store, h.size, h.lower, fun q hq => ?_, h.distinct, h.marked, h.pending, h.entailed⟩
  obtain ⟨hlev, j, hj, hjq⟩ := h.opened q hq
  refine ⟨hlev, j, ?_, hjq⟩
  rcases Nat.lt_succ_iff_lt_or_eq.1 hj with hj | rfl
  · exact hj
  · have hvar : p.var = q.var := by rw [Option.some.inj (hp.symm.trans hjq), Lit.var_neg]
    exact absurd ((h.marked p.var).2 (hvar ▸ List.mem_map_of_mem (List.mem_append_right _ hq))) hunmarked

/-- Some literal of the current level is open, so the last literal of the walk is of that level too. -/
theorem Walking.level_eq {p : Lit} (h : Walking Φ t o s (i + 1) os rest a) (ht : t.Valid)
    (hp : t.lits[i]? = some p) (hos : os ≠ []) : t.levelOf p.var = t.depth := by
  obtain ⟨q, hq⟩ := List.exists_mem_of_ne_nil os hos
  obtain ⟨hql, j, hj, hjq⟩ := h.opened q hq
  rw [← Lit.var_neg, ht.level_eq j _ hjq] at hql
  have hmono : t.levelAt j ≤ t.levelAt i := Trail.levelAt_mono (by omega)
  have hle : t.levelAt i ≤ t.depth := Trail.levelAt_le_depth
  rw [ht.level_eq i p hp]
  omega

/-- A marked literal of the current level is open. -/
theorem Walking.mem_open {p : Lit} (h : Walking Φ t o s i os rest a) (ht : t.Valid) (hpt : p ∈ t.lits)
    (hlev : t.levelOf p.var = t.depth) (hmarked : Marked a.marks p.var) : p.neg ∈ os := by
  obtain ⟨q, hq, hqv⟩ := List.mem_map.1 ((h.marked p.var).1 hmarked)
  rcases List.mem_append.1 hq with hq | hq
  · exact absurd (hqv ▸ (h.lower q hq).2.2) (by omega)
  · obtain ⟨-, j, -, hj⟩ := h.opened q hq
    rwa [← eq_of_false ht (q := p.neg) (Array.mem_of_getElem? hj) (by simpa using hpt) (by simpa using hqv)]

theorem walk_gives (hsh : Shaped t s.clauses) (hs : Sound Φ t s.clauses) (hd : 0 < t.depth)
    (h : Walking Φ t o s i os [] a) (hi : i ≤ t.lits.size) (hos : os ≠ []) :
    Gives (walk t i a) fun r => Cut Φ t o s r.1 r.2 := by
  induction i generalizing a os with
  | zero =>
    obtain ⟨q, hq⟩ := List.exists_mem_of_ne_nil os hos
    obtain ⟨-, j, hj, -⟩ := h.opened q hq
    omega
  | succ i ih =>
    have hlt : i < t.lits.size := hi
    have hp : t.lits[i]? = some t.lits[i] := Array.getElem?_eq_getElem hlt
    rw [walk, Table.read_of_lt hlt, ok_bind]
    generalize t.lits[i] = p at hp
    have hpt : p ∈ t.lits := Array.mem_of_getElem? hp
    have hpm : p.var < a.marks.size := h.size ▸ hsh.trail.known hpt
    refine (read_marks hpm).bind fun r hr => ?_
    cases r with
    | false =>
      rw [if_neg (by decide)]
      exact ih (h.pass hp fun hm => absurd (hr.2 hm) (by decide)) (by omega) hos
    | true =>
      rw [if_pos rfl]
      have hlev := h.level_eq hsh.trail hp hos
      have hopen := h.mem_open hsh.trail hpt hlev (hr.1 rfl)
      have hlen := List.length_erase_of_mem hopen
      have hpend := h.pending
      dsimp only
      split
      · next h0 =>
        have := List.length_pos_of_mem hopen
        omega
      · next h1 =>
        have hnil : os.erase p.neg = [] := List.eq_nil_of_length_eq_zero (by omega)
        have hclosed := h.close hp (hsh.trail.known hpt) hopen h.store
        rw [hnil, h1] at hclosed
        exact .pure ⟨{ hclosed with opened := by simp }, hpt, hlev⟩
      · next n h2 =>
        have hne : os.erase p.neg ≠ [] := fun hnil => by
          rw [hnil] at hlen
          simp only [List.length_nil] at hlen
          omega
        obtain ⟨q, hq⟩ := List.exists_mem_of_ne_nil _ hne
        rw [Trail.reason_eq_ok (hsh.lt_origins hpt), ok_bind]
        cases hreason : t.reasonOf p.var with
        | none =>
          -- the first literal of the level would be the only open one
          obtain ⟨hql, j, hj, hjq⟩ := (h.close hp (hsh.trail.known hpt) hopen h.store).opened q hq
          have := first_of_level hsh hd hp hlev hreason hjq (by simpa using hql)
          omega
        | some id =>
          obtain ⟨c, hc, -, -⟩ := hsh.reason i p id hp hreason
          have hid : id < a.store.clauses.size := by
            rw [h.store.alike.size_eq]
            exact (Array.getElem?_eq_some_iff.1 hc.1).1
          dsimp only
          refine (bump_gives hid).bind fun s' hs' => ?_
          obtain ⟨ls, c', hls, hc', hcl, hprem⟩ := premises_gives (h.store.trans hs') hsh hp hreason
          have hclosed := (h.close hp (hsh.trail.known hpt) hopen (h.store.trans hs')).resolve hs hc' hcl
          rw [h2] at hclosed
          rw [hls, ok_bind]
          refine (meets_gives hsh.trail hs hd hclosed hprem).bind fun a' ha' => ?_
          obtain ⟨os', h', hsub, -⟩ := ha'
          exact ih h' (by omega) (List.ne_nil_of_mem (hsub hq))

end Analysis

end Countermodels.Sat
