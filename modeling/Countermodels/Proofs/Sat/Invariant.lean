import Countermodels.Proofs.Sat.Trail
import Countermodels.Sat.Board

/-! What holds of a trail and a table of clauses throughout a search. The clauses follow from the clauses
that were given, `Φ`, and so do the literals of the root level; a literal that was forced stands first
in its reason, whose other literals became false before it; and every clause is watched by its first
two literals. -/

namespace Countermodels.Sat

/-- A clause that is not deleted, by its number. -/
def Live (cs : Array Clause) (id : Nat) (c : Clause) : Prop := cs[id]? = some c ∧ c.deleted = false

theorem Live.unique {cs : Array Clause} {id : Nat} {c d : Clause} (hc : Live cs id c) (hd : Live cs id d) :
    c = d := Option.some.inj (hc.1.symm.trans hd.1)

namespace Clause

/-- The watched literals of a clause are its first two. -/
def Watches (c : Clause) (l : Lit) : Prop := c.lits[0]? = some l ∨ c.lits[1]? = some l

instance (c : Clause) (l : Lit) : Decidable (c.Watches l) :=
  inferInstanceAs (Decidable (c.lits[0]? = some l ∨ c.lits[1]? = some l))

theorem Watches.mem {c : Clause} {l : Lit} (h : c.Watches l) : l ∈ c.lits :=
  h.elim Array.mem_of_getElem? Array.mem_of_getElem?

end Clause

/-- A literal of the clause is true, of a level no higher than that of `l`. While `l` is false, so is
this literal true. -/
def Covers (t : Trail) (c : Clause) (l : Lit) : Prop :=
  ∃ m ∈ c.lits, m ∈ t.lits ∧ t.levelOf m.var ≤ t.levelOf l.var

/-- Clauses and reasons fit the trail. -/
structure Shaped (t : Trail) (cs : Array Clause) : Prop where
  trail : t.Valid
  two_le : ∀ id c, Live cs id c → 2 ≤ c.lits.size
  nodup : ∀ id c, Live cs id c → c.lits.toList.Nodup
  known : ∀ id c, Live cs id c → ∀ l ∈ c.lits, l.var < t.values.size
  reason : ∀ (i : Nat) (p : Lit) (id : Nat), t.lits[i]? = some p → t.reasonOf p.var = some id →
    ∃ c, Live cs id c ∧ c.lits[0]? = some p ∧ ∀ q ∈ c.lits, q ≠ p → ∃ j < i, t.lits[j]? = some q.neg
  decision : ∀ (i : Nat) (p : Lit), t.lits[i]? = some p → t.reasonOf p.var = none → t.levelAt i = 0 ∨ i ∈ t.marks

/-- Clauses and root literals say the same as the clauses `Φ` that were given. -/
structure Sound (Φ : List (List Lit)) (t : Trail) (cs : Array Clause) : Prop where
  clause : ∀ id c, Live cs id c → Entails Φ c.lits.toList
  root : ∀ l ∈ t.lits, t.levelOf l.var = 0 → Entails Φ [l]
  complete : ∀ σ, (∀ l ∈ t.lits, t.levelOf l.var = 0 → l.holds σ = true) →
    (∀ id c, Live cs id c → c.learnt = false → Lit.anyHolds c.lits.toList σ = true) → Models Φ σ

/-- The watchers of the literals are those of the live clauses, one for each watched literal. -/
structure Watched (cs : Array Clause) (n : Nat) (W : Lit → List Watcher) : Prop where
  clause_lt : ∀ l, ∀ w ∈ W l, w.clause < cs.size
  blocker_lt : ∀ l, ∀ w ∈ W l, w.blocker.var < n
  blocker_mem : ∀ l, ∀ w ∈ W l, ∀ c, Live cs w.clause c → w.blocker ∈ c.lits
  count : ∀ id c, Live cs id c → ∀ l, (W l).countP (·.clause = id) = if c.Watches l then 1 else 0

/-- Where a watched literal has become false among the first `k` literals of the trail, its clause is
satisfied. -/
def Settled (t : Trail) (cs : Array Clause) (k : Nat) : Prop :=
  ∀ id c, Live cs id c → ∀ l, c.Watches l → ∀ i < k, t.lits[i]? = some l.neg → Covers t c l

/-- The lists of clauses know their kind, and deleted clauses are empty. -/
structure Listed (s : ClauseStore) : Prop where
  empty : ∀ (id : Nat) (c : Clause), s.clauses[id]? = some c → c.deleted = true → c.lits = #[]
  given_lt : ∀ id ∈ s.given, id < s.clauses.size
  learnt : ∀ id ∈ s.learnts, ∃ c, s.clauses[id]? = some c ∧ c.learnt = true

namespace Trail

/-- The place where the current level starts. -/
def levelStart (t : Trail) : Nat := t.marks.back?.getD 0

variable {t : Trail} {i : Nat}

theorem Valid.levelStart_le (ht : t.Valid) : t.levelStart ≤ t.head := by
  rw [levelStart]
  cases h : t.marks.back? with
  | none => exact Nat.zero_le _
  | some m => exact ht.marks_le m (Array.mem_of_back? h)

theorem Valid.lt_levelStart_iff (ht : t.Valid) : i < t.levelStart ↔ t.levelAt i < t.depth := by
  rw [levelStart]
  cases h : t.marks.back? with
  | none =>
    have : t.depth = 0 := by simpa [depth] using Array.back?_eq_none_iff.1 h
    simp [this]
  | some m =>
    rw [Array.back?_eq_getElem?] at h
    have hlt := (Array.getElem?_eq_some_iff.1 h).1
    rw [Option.getD_some, ← ht.levelAt_le_iff h, depth]
    omega

end Trail

namespace Board

def watchersOf (b : Board) (l : Lit) : List Watcher := (b.watchers.getD l.code #[]).toList

/-- What holds of a board at all times. -/
structure Valid (Φ : List (List Lit)) (b : Board) : Prop where
  shaped : Shaped b.trail b.store.clauses
  sound : Sound Φ b.trail b.store.clauses
  table_size : b.watchers.size = 2 * b.trail.values.size
  watched : Watched b.store.clauses b.trail.values.size b.watchersOf
  listed : Listed b.store

end Board

variable {Φ : List (List Lit)} {t : Trail} {cs : Array Clause} {l p q : Lit} {i id : Nat} {c : Clause}

namespace Shaped

variable (h : Shaped t cs)

include h

theorem lt_origins (hl : l ∈ t.lits) : l.var < t.origins.size :=
  h.trail.origins_size ▸ h.trail.known hl

end Shaped

namespace Sound

variable (hs : Sound Φ t cs)

include hs

theorem root_holds {σ : Nat → Bool} (hσ : Models Φ σ) (hl : l ∈ t.lits) (h0 : t.levelOf l.var = 0) :
    l.holds σ = true := (hs.root l hl h0).holds hσ

/-- The only literal of a clause that is not false at the root level follows. -/
theorem unit_entailed (hc : Live cs id c) (hrest : ∀ q ∈ c.lits, q ≠ p → q.neg ∈ t.lits ∧ t.levelOf q.var = 0) :
    Entails Φ [p] := fun σ hσ => by
  obtain ⟨q, hq, hqσ⟩ := Lit.anyHolds_iff.1 (hs.clause id c hc σ hσ)
  refine Lit.anyHolds_iff.2 ⟨q, List.mem_singleton.2 ?_, hqσ⟩
  by_contra hne
  obtain ⟨hn, h0⟩ := hrest q (Array.mem_toList_iff.1 hq) hne
  have := hs.root_holds hσ hn (by simpa using h0)
  simp [hqσ] at this

/-- No assignment makes the given clauses true once a clause is false at the root level. -/
theorem conflict (hc : Live cs id c) (hall : ∀ q ∈ c.lits, q.neg ∈ t.lits ∧ t.levelOf q.var = 0)
    (σ : Nat → Bool) : ¬ Models Φ σ := fun hσ => by
  obtain ⟨q, hq, hqσ⟩ := Lit.anyHolds_iff.1 (hs.clause id c hc σ hσ)
  obtain ⟨hn, h0⟩ := hall q (Array.mem_toList_iff.1 hq)
  have := hs.root_holds hσ hn (by simpa using h0)
  simp [hqσ] at this

end Sound

/-! How far the trail is propagated does not matter to clauses and reasons. -/

theorem Shaped.withHead (h : Shaped t cs) {k : Nat} (ht : ({ t with head := k } : Trail).Valid) :
    Shaped { t with head := k } cs :=
  ⟨ht, h.two_le, h.nodup, h.known, h.reason, h.decision⟩

theorem Sound.withHead (h : Sound Φ t cs) (k : Nat) : Sound Φ { t with head := k } cs :=
  ⟨h.clause, h.root, h.complete⟩

/-! A literal more on the trail. -/

section Pushed

variable {r : Option Nat} (hl : l.var < t.values.size) (hf : t.valueOf l = .free)

include hl hf

theorem Trail.Valid.ne_var_of_mem (ht : t.Valid) (hm : q ∈ t.lits) : q.var ≠ l.var := fun hv => by
  obtain ⟨hp, hn⟩ := ht.free_iff.1 hf
  rcases Lit.eq_or_eq_neg_of_var_eq hv with rfl | rfl
  · exact hp hm
  · exact hn hm

theorem Trail.Valid.levelOf_pushed_of_mem (ht : t.Valid) (hm : q ∈ t.lits) :
    (t.pushed l r).levelOf q.var = t.levelOf q.var := by
  rw [Trail.levelOf_pushed (ht.origins_size ▸ hl), if_neg (ht.ne_var_of_mem hl hf hm)]

theorem Trail.Valid.reasonOf_pushed_of_mem (ht : t.Valid) (hm : q ∈ t.lits) :
    (t.pushed l r).reasonOf q.var = t.reasonOf q.var := by
  rw [Trail.reasonOf_pushed (ht.origins_size ▸ hl), if_neg (ht.ne_var_of_mem hl hf hm)]

theorem Covers.pushed (ht : t.Valid) (hp : p.neg ∈ t.lits) (h : Covers t c p) :
    Covers (t.pushed l r) c p := by
  obtain ⟨m, hm, hmt, hle⟩ := h
  refine ⟨m, hm, Array.mem_push.2 (.inl hmt), ?_⟩
  rw [ht.levelOf_pushed_of_mem hl hf hmt, ← Lit.var_neg p, ht.levelOf_pushed_of_mem hl hf hp, Lit.var_neg]
  exact hle

theorem Shaped.pushed (h : Shaped t cs)
    (hsome : ∀ id, r = some id → ∃ c, Live cs id c ∧ c.lits[0]? = some l ∧
      ∀ q ∈ c.lits, q ≠ l → q.neg ∈ t.lits)
    (hnone : r = none → t.depth = 0 ∨ t.lits.size ∈ t.marks) : Shaped (t.pushed l r) cs where
  trail := h.trail.pushed hl hf
  two_le := h.two_le
  nodup := h.nodup
  known id c hc m hm := by
    simpa [Trail.pushed] using h.known id c hc m hm
  reason i p id hi hr := by
    simp only [Trail.pushed, Array.getElem?_push] at hi
    have hold : ∀ j, ∀ m : Lit, t.lits[j]? = some m → (t.pushed l r).lits[j]? = some m := fun j m hj => by
      have := (Array.getElem?_eq_some_iff.1 hj).1
      rw [Trail.pushed, Array.getElem?_push, if_neg (by omega), hj]
    split at hi
    · next he =>
      obtain rfl := Option.some.inj hi
      rw [Trail.reasonOf_pushed (h.trail.origins_size ▸ hl), if_pos rfl] at hr
      obtain ⟨c, hc, hfirst, hrest⟩ := hsome id hr
      refine ⟨c, hc, hfirst, fun q hq hne => ?_⟩
      obtain ⟨j, hj⟩ := Array.mem_iff_getElem?.1 (hrest q hq hne)
      exact ⟨j, he ▸ (Array.getElem?_eq_some_iff.1 hj).1, hold j _ hj⟩
    · rw [h.trail.reasonOf_pushed_of_mem hl hf (Array.mem_of_getElem? hi)] at hr
      obtain ⟨c, hc, hfirst, hrest⟩ := h.reason i p id hi hr
      refine ⟨c, hc, hfirst, fun q hq hne => ?_⟩
      obtain ⟨j, hji, hj⟩ := hrest q hq hne
      exact ⟨j, hji, hold j _ hj⟩
  decision i p hi hr := by
    simp only [Trail.pushed, Array.getElem?_push] at hi
    split at hi
    · next he =>
      obtain rfl := Option.some.inj hi
      rw [Trail.reasonOf_pushed (h.trail.origins_size ▸ hl), if_pos rfl] at hr
      rcases hnone hr with h0 | hm
      · have hle : t.levelAt i ≤ t.depth := Trail.levelAt_le_depth
        exact .inl (Nat.le_zero.1 (h0 ▸ hle))
      · exact .inr (he ▸ hm)
    · rw [h.trail.reasonOf_pushed_of_mem hl hf (Array.mem_of_getElem? hi)] at hr
      exact h.decision i p hi hr

theorem Sound.pushed (ht : t.Valid) (hs : Sound Φ t cs) (h0 : t.depth = 0 → Entails Φ [l]) :
    Sound Φ (t.pushed l r) cs where
  clause := hs.clause
  root m hm hlev := by
    rcases Array.mem_push.1 hm with hm | rfl
    · rw [ht.levelOf_pushed_of_mem hl hf hm] at hlev
      exact hs.root m hm hlev
    · rw [Trail.levelOf_pushed (ht.origins_size ▸ hl), if_pos rfl] at hlev
      exact h0 hlev
  complete σ hroot := hs.complete σ fun m hm hlev =>
    hroot m (Array.mem_push.2 (.inl hm)) (by rw [ht.levelOf_pushed_of_mem hl hf hm]; exact hlev)

theorem Settled.pushed (ht : t.Valid) {k : Nat} (hk : k ≤ t.lits.size) (h : Settled t cs k) :
    Settled (t.pushed l r) cs k := fun id c hc m hm i hi hlit => by
  have hlit : t.lits[i]? = some m.neg := by
    simpa [Trail.pushed, Array.getElem?_push, show i ≠ t.lits.size by omega] using hlit
  exact (h id c hc m hm i hi hlit).pushed hl hf ht (Array.mem_of_getElem? hlit)

end Pushed

end Countermodels.Sat
