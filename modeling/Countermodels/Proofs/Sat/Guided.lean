import Countermodels.Proofs.Sat.Learn

/-! Decisions under assumptions. The first levels of the trail belong to the assumptions, one each: the
level of an assumption that held already is empty. A trail of these levels only is forced, so when an
assumption is false on it the assumptions are refuted. -/

namespace Countermodels.Sat

/-- The trail decides on the assumptions first, and every later level starts with a decision. -/
structure Guided (A : List Lit) (t : Trail) : Prop where
  assumed : ∀ (k : Nat) (p : Lit), A[k]? = some p → k < t.depth → p ∈ t.lits ∧ t.levelOf p.var ≤ k + 1
  decided : ∀ p ∈ t.lits, t.reasonOf p.var = none → ∀ k, t.levelOf p.var = k + 1 → k < A.length → A[k]? = some p
  opened : ∀ k start, A.length ≤ k → t.marks[k]? = some start → start < t.lits.size ∧ t.levelAt start = k + 1

variable {Φ : List (List Lit)} {A : List Lit} {t : Trail} {cs : Array Clause} {b b' : Board}

/-- Propagation keeps the levels of literals, and works on the current level. -/
theorem Grown.levelOf (h : Grown b b') (ht : b.trail.Valid) (ht' : b'.trail.Valid) {p : Lit} (hp : p ∈ b'.trail.lits) :
    b'.trail.levelOf p.var = if p ∈ b.trail.lits then b.trail.levelOf p.var else b.trail.depth := by
  obtain ⟨i, hi⟩ := Array.mem_iff_getElem?.1 hp
  have hlevel : b'.trail.levelOf p.var = b.trail.levelAt i := by
    rw [ht'.level_eq i p hi, Trail.levelAt, Trail.levelAt, h.marks]
  by_cases hlt : i < b.trail.lits.size
  · have hold : b.trail.lits[i]? = some p := by
      have := h.getElem? (Array.getElem?_eq_getElem hlt)
      rw [Array.getElem?_eq_getElem hlt, ← this, hi]
    rw [if_pos (Array.mem_of_getElem? hold), hlevel, ht.level_eq i p hold]
  · have hnew : p ∉ b.trail.lits := fun hm => by
      obtain ⟨j, hj⟩ := Array.mem_iff_getElem?.1 hm
      have hjlt := (Array.getElem?_eq_some_iff.1 hj).1
      have := ht'.place_unique hi (h.getElem? hj) rfl
      omega
    rw [if_neg hnew, hlevel]
    exact Trail.levelAt_eq_depth fun m hm => Nat.le_trans (ht.marks_le m hm) (Nat.le_trans ht.head_le (by omega))

namespace Guided

theorem grown (h : Guided A b.trail) (hg : Grown b b') (ht : b.trail.Valid) (ht' : b'.trail.Valid) :
    Guided A b'.trail where
  assumed k p hk hlt := by
    have hlt : k < b.trail.depth := by rwa [Trail.depth, hg.marks] at hlt
    obtain ⟨hp, hle⟩ := h.assumed k p hk hlt
    refine ⟨hg.mem hp, ?_⟩
    rw [hg.levelOf ht ht' (hg.mem hp), if_pos hp]
    exact hle
  decided p hp hr k hlev hk := by
    by_cases hold : p ∈ b.trail.lits
    · rw [hg.levelOf ht ht' hp, if_pos hold] at hlev
      exact h.decided p hold ((hg.reason p hold).symm.trans hr) k hlev hk
    · exact absurd hr (hg.forced p hp hold)
  opened k start hk hm := by
    rw [hg.marks] at hm
    obtain ⟨hlt, hlev⟩ := h.opened k start hk hm
    have hle := hg.lits.length_le
    rw [Array.length_toList, Array.length_toList] at hle
    refine ⟨by omega, ?_⟩
    rw [Trail.levelAt, hg.marks]
    exact hlev

theorem cutAt {level start : Nat} (h : Guided A t) (ht : t.Valid) (hcut : t.marks[level]? = some start) :
    Guided A (t.cutAt level start) where
  assumed k p hk hlt := by
    rw [Trail.depth_cutAt hcut] at hlt
    have hlevel : level < t.depth := (Array.getElem?_eq_some_iff.1 hcut).1
    obtain ⟨hp, hle⟩ := h.assumed k p hk (by omega)
    exact ⟨(Trail.mem_cutAt ht hcut).2 ⟨hp, by omega⟩, hle⟩
  decided p hp hr k hlev hk := h.decided p ((Trail.mem_cutAt ht hcut).1 hp).1 hr k hlev hk
  opened k m hk hm := by
    rw [← Array.getElem?_toList, Trail.cutAt, Array.toList_shrink, List.getElem?_take, Array.getElem?_toList] at hm
    split at hm
    · next hkl =>
      obtain ⟨hlt, hlev⟩ := h.opened k m hk hm
      have hms : m < start := (ht.levelAt_le_iff hcut).1 (by omega)
      refine ⟨?_, by rw [Trail.levelAt_cutAt ht hcut hms, hlev]⟩
      rw [← Array.length_toList, Trail.toList_lits_cutAt, List.length_take, Array.length_toList]
      omega
    · cases hm

theorem pushed {l : Lit} {r : Option Nat} (h : Guided A t) (ht : t.Valid) (hl : l.var < t.values.size)
    (hf : t.valueOf l = .free) (hr : 0 < t.depth → r ≠ none) : Guided A (t.pushed l r) where
  assumed k p hk hlt := by
    obtain ⟨hp, hle⟩ := h.assumed k p hk hlt
    refine ⟨Array.mem_push.2 (.inl hp), ?_⟩
    rw [ht.levelOf_pushed_of_mem hl hf hp]
    exact hle
  decided p hp hreason k hlev hk := by
    rcases Array.mem_push.1 hp with hp | rfl
    · rw [ht.levelOf_pushed_of_mem hl hf hp] at hlev
      rw [ht.reasonOf_pushed_of_mem hl hf hp] at hreason
      exact h.decided p hp hreason k hlev hk
    · rw [Trail.reasonOf_pushed (ht.origins_size ▸ hl), if_pos rfl] at hreason
      rw [Trail.levelOf_pushed (ht.origins_size ▸ hl), if_pos rfl] at hlev
      exact absurd hreason (hr (by omega))
  opened k start hk hm := by
    obtain ⟨hlt, hlev⟩ := h.opened k start hk hm
    refine ⟨?_, hlev⟩
    rw [Trail.pushed, Array.size_push]
    omega

/-- The level of an assumption that holds is empty. -/
theorem openLevel {p : Lit} (h : Guided A t) (ht : t.Valid) (hp : A[t.depth]? = some p) (hmem : p ∈ t.lits) :
    Guided A t.openLevel where
  assumed k q hk hlt := by
    have hlt : k < t.depth + 1 := by simpa [Trail.openLevel, Trail.depth] using hlt
    rcases Nat.lt_succ_iff_lt_or_eq.1 hlt with hlt | rfl
    · exact h.assumed k q hk hlt
    · obtain rfl := Option.some.inj (hp.symm.trans hk)
      exact ⟨hmem, Nat.le_succ_of_le (ht.level_le_depth hmem)⟩
  decided := h.decided
  opened k start hk hm := by
    have hlt : t.depth < A.length := (List.getElem?_eq_some_iff.1 hp).1
    rw [Trail.openLevel, Array.getElem?_push, if_neg (show k ≠ t.marks.size from Nat.ne_of_gt (Nat.lt_of_lt_of_le hlt hk))] at hm
    obtain ⟨hs, hlev⟩ := h.opened k start hk hm
    exact ⟨hs, by rw [Trail.levelAt_openLevel hs, hlev]⟩

/-- A decision opens a level; on a level that belongs to an assumption, it is the assumption. -/
theorem decide {l : Lit} (h : Guided A t) (ht : t.Valid) (hh : t.head = t.lits.size) (hl : l.var < t.values.size)
    (hf : t.valueOf l = .free) (hA : ∀ p, A[t.depth]? = some p → p = l) :
    Guided A (t.openLevel.pushed l none) := by
  have ht' : t.openLevel.Valid := ht.openLevel hh
  have hdepth : t.openLevel.depth = t.depth + 1 := by simp [Trail.openLevel, Trail.depth]
  have hself : (t.openLevel.pushed l none).levelOf l.var = t.depth + 1 := by
    rw [Trail.levelOf_pushed (ht'.origins_size ▸ hl), if_pos rfl, hdepth]
  have hold : ∀ {p}, p ∈ t.lits → (t.openLevel.pushed l none).levelOf p.var = t.levelOf p.var := fun hp =>
    ht'.levelOf_pushed_of_mem hl hf hp
  refine ⟨fun k p hk hlt => ?_, fun p hp hreason k hlev hk => ?_, fun k start hk hm => ?_⟩
  · have hlt : k < t.depth + 1 := hdepth ▸ hlt
    rcases Nat.lt_succ_iff_lt_or_eq.1 hlt with hlt | rfl
    · obtain ⟨hp, hle⟩ := h.assumed k p hk hlt
      exact ⟨Array.mem_push.2 (.inl hp), by rw [hold hp]; exact hle⟩
    · obtain rfl := hA p hk
      exact ⟨Array.mem_push_self, Nat.le_of_eq hself⟩
  · rcases Array.mem_push.1 hp with hp | rfl
    · rw [hold hp] at hlev
      have hreason : t.reasonOf p.var = none := by
        rw [← hreason]
        exact (Trail.Valid.reasonOf_pushed_of_mem (t := t.openLevel) hl hf ht' hp).symm
      exact h.decided p hp hreason k hlev hk
    · rw [hself] at hlev
      obtain rfl : t.depth = k := by omega
      rw [List.getElem?_eq_getElem hk]
      exact congrArg some (hA _ (List.getElem?_eq_getElem hk))
  · have hsize : (t.openLevel.pushed l none).lits.size = t.lits.size + 1 := by simp [Trail.pushed, Trail.openLevel]
    have hm : (t.marks.push t.lits.size)[k]? = some start := hm
    rw [Array.getElem?_push] at hm
    rw [hsize]
    split at hm
    · next hkd =>
      obtain rfl := Option.some.inj hm
      refine ⟨Nat.lt_succ_self _, ?_⟩
      have : t.openLevel.levelAt t.lits.size = t.openLevel.depth :=
        Trail.levelAt_eq_depth fun m hm => Nat.le_trans (ht'.marks_le m hm) ht'.head_le
      have hkd : k = t.depth := hkd
      rw [hkd, ← hdepth, ← this]
      rfl
    · obtain ⟨hs, hlev⟩ := h.opened k start hk hm
      refine ⟨by omega, ?_⟩
      rw [← hlev, ← Trail.levelAt_openLevel hs]
      rfl

/-- On the levels of the assumptions, everything follows from them. -/
theorem follows {σ : Nat → Bool} (h : Guided A t) (hsh : Shaped t cs) (hs : Sound Φ t cs) (hd : t.depth ≤ A.length)
    (hσ : Models Φ σ) (hA : ∀ p ∈ A, p.holds σ = true) : ∀ p ∈ t.lits, p.holds σ = true := by
  have key : ∀ (i : Nat) (p : Lit), t.lits[i]? = some p → p.holds σ = true := by
    intro i
    induction i using Nat.strongRecOn with
    | _ i ih =>
      intro p hp
      have hpt : p ∈ t.lits := Array.mem_of_getElem? hp
      cases hr : t.reasonOf p.var with
      | some id =>
        obtain ⟨c, hc, -, hrest⟩ := hsh.reason i p id hp hr
        obtain ⟨q, hq, hqσ⟩ := Lit.anyHolds_iff.1 (hs.clause id c hc σ hσ)
        by_cases hqp : q = p
        · exact hqp ▸ hqσ
        · obtain ⟨j, hj, hjq⟩ := hrest q (Array.mem_toList_iff.1 hq) hqp
          have := ih j hj _ hjq
          simp [hqσ] at this
      | none =>
        cases hlev : t.levelOf p.var with
        | zero => exact hs.root_holds hσ hpt hlev
        | succ k =>
          have hk : k < A.length := by
            have := hsh.trail.level_le_depth hpt
            omega
          exact hA p (List.mem_of_getElem? (h.decided p hpt hr k hlev hk))
  intro p hp
  obtain ⟨i, hi⟩ := Array.mem_iff_getElem?.1 hp
  exact key i p hi

end Guided

end Countermodels.Sat
