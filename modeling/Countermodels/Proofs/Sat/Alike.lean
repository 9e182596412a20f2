import Countermodels.Proofs.Sat.Invariant

/-! Tables of clauses that differ only in the order of literals and in activities. -/

namespace Countermodels.Sat

/-- The same clause up to the order of its literals and its activity. -/
structure Clause.Alike (c d : Clause) : Prop where
  learnt : d.learnt = c.learnt
  deleted : d.deleted = c.deleted
  perm : d.lits.toList.Perm c.lits.toList

/-- The same clauses up to the order of literals and activities. -/
def Alike (cs ds : Array Clause) : Prop := ∀ id : Nat, Option.Rel Clause.Alike cs[id]? ds[id]?

namespace Alike

variable {cs ds es : Array Clause} {id : Nat} {c d : Clause}

theorem refl (cs : Array Clause) : Alike cs cs := fun id => by
  cases cs[id]? with
  | none => exact .none
  | some c => exact .some ⟨rfl, rfl, .refl _⟩

theorem symm (h : Alike cs ds) : Alike ds cs := fun id => by
  have := h id
  revert this
  generalize cs[id]? = x, ds[id]? = y
  rintro (⟨hl, hd, hp⟩ | _)
  · exact .some ⟨hl.symm, hd.symm, hp.symm⟩
  · exact .none

theorem trans (h : Alike cs ds) (h' : Alike ds es) : Alike cs es := fun id => by
  have h1 := h id
  have h2 := h' id
  revert h1 h2
  generalize cs[id]? = x, ds[id]? = y, es[id]? = z
  rintro (⟨hl, hd, hp⟩ | _) h2
  · cases h2 with
    | some h2 => exact .some ⟨h2.learnt.trans hl, h2.deleted.trans hd, h2.perm.trans hp⟩
  · cases h2
    exact .none

theorem some_of_some (h : Alike cs ds) (hd : ds[id]? = some d) : ∃ c, cs[id]? = some c ∧ c.Alike d := by
  have := h id
  rw [hd] at this
  cases hc : cs[id]? with
  | none => rw [hc] at this; cases this
  | some c =>
    rw [hc] at this
    cases this with
    | some ha => exact ⟨c, rfl, ha⟩

theorem live (h : Alike cs ds) (hd : Live ds id d) : ∃ c, Live cs id c ∧ c.Alike d := by
  obtain ⟨c, hc, ha⟩ := h.some_of_some hd.1
  exact ⟨c, ⟨hc, ha.deleted ▸ hd.2⟩, ha⟩

theorem size_eq (h : Alike cs ds) : ds.size = cs.size := by
  have key : ∀ {cs ds : Array Clause}, Alike cs ds → ds.size ≤ cs.size := fun {cs ds} h => by
    by_contra hlt
    obtain ⟨c, hc, -⟩ := h.some_of_some (Array.getElem?_eq_getElem (Nat.lt_of_not_le hlt))
    exact absurd (Array.getElem?_eq_some_iff.1 hc).1 (Nat.lt_irrefl _)
  exact Nat.le_antisymm (key h) (key h.symm)

/-- Changing one clause to one alike. -/
theorem update (hc : cs[id]? = some c) (hd : ds[id]? = some d) (hcd : c.Alike d)
    (hother : ∀ j, j ≠ id → ds[j]? = cs[j]?) : Alike cs ds := fun j => by
  by_cases h : j = id
  · subst h
    rw [hc, hd]
    exact .some hcd
  · rw [hother j h]
    exact Alike.refl cs j

end Alike

variable {Φ : List (List Lit)} {t : Trail} {cs ds : Array Clause}

theorem Clause.Alike.mem_iff {c d : Clause} (h : c.Alike d) {l : Lit} : l ∈ d.lits ↔ l ∈ c.lits := by
  rw [← Array.mem_toList_iff, h.perm.mem_iff, Array.mem_toList_iff]

theorem Clause.Alike.covers {c d : Clause} (h : c.Alike d) {l : Lit} (hc : Covers t c l) : Covers t d l := by
  obtain ⟨m, hm, hrest⟩ := hc
  exact ⟨m, h.mem_iff.2 hm, hrest⟩

theorem Clause.Alike.anyHolds_iff {c d : Clause} (h : c.Alike d) (σ : Nat → Bool) :
    Lit.anyHolds d.lits.toList σ = true ↔ Lit.anyHolds c.lits.toList σ = true := by
  simp only [Lit.anyHolds_iff, h.perm.mem_iff]

theorem Sound.alike (h : Sound Φ t cs) (ha : Alike cs ds) : Sound Φ t ds where
  clause id d hd := by
    obtain ⟨c, hc, hcd⟩ := ha.live hd
    exact fun σ hσ => (hcd.anyHolds_iff σ).2 (h.clause id c hc σ hσ)
  root := h.root
  complete σ hroot hgiven := h.complete σ hroot fun id c hc hl => by
    obtain ⟨d, hd, hdc⟩ := ha.symm.live hc
    exact (hdc.anyHolds_iff σ).2 (hgiven id d hd (hdc.learnt ▸ hl))

/-- Reasons stay reasons as long as their first literals stay first. -/
theorem Shaped.alike (h : Shaped t cs) (ha : Alike cs ds)
    (hfirst : ∀ id c d, Live cs id c → Live ds id d → ∀ p ∈ t.lits, c.lits[0]? = some p → d.lits[0]? = some p) :
    Shaped t ds where
  trail := h.trail
  two_le id d hd := by
    obtain ⟨c, hc, hcd⟩ := ha.live hd
    have := hcd.perm.length_eq
    simp only [Array.length_toList] at this
    rw [this]
    exact h.two_le id c hc
  nodup id d hd := by
    obtain ⟨c, hc, hcd⟩ := ha.live hd
    exact hcd.perm.nodup_iff.2 (h.nodup id c hc)
  known id d hd l hl := by
    obtain ⟨c, hc, hcd⟩ := ha.live hd
    exact h.known id c hc l (hcd.mem_iff.1 hl)
  reason i p id hi hr := by
    obtain ⟨c, hc, h0, hrest⟩ := h.reason i p id hi hr
    obtain ⟨d, hd, hdc⟩ := ha.symm.live hc
    refine ⟨d, hd, hfirst id c d hc hd p (Array.mem_of_getElem? hi) h0, fun q hq hne => ?_⟩
    exact hrest q (hdc.mem_iff.2 hq) hne
  decision := h.decision

theorem Listed.alike {s s' : ClauseStore} (h : Listed s) (ha : Alike s.clauses s'.clauses)
    (hg : s'.given = s.given) (hl : s'.learnts = s.learnts) : Listed s' where
  empty id d hd hdel := by
    obtain ⟨c, hc, hcd⟩ := ha.some_of_some hd
    have hnil := hcd.perm
    rw [h.empty id c hc (hcd.deleted ▸ hdel)] at hnil
    exact Array.toList_inj.1 (List.perm_nil.1 hnil)
  given_lt id hid := by
    rw [ha.size_eq]
    exact h.given_lt id (hg ▸ hid)
  learnt id hid := by
    obtain ⟨c, hc, hlearnt⟩ := h.learnt id (hl ▸ hid)
    obtain ⟨d, hd, hdc⟩ := ha.symm.some_of_some hc
    exact ⟨d, hd, hdc.learnt ▸ hlearnt⟩

/-- The table of watchers still fits if the watched literals are the same. -/
theorem Watched.alike {n : Nat} {W : Lit → List Watcher} (h : Watched cs n W) (ha : Alike cs ds)
    (hw : ∀ id c d, Live cs id c → Live ds id d → ∀ l, d.Watches l ↔ c.Watches l) : Watched ds n W where
  clause_lt l w hlw := by
    rw [ha.size_eq]
    exact h.clause_lt l w hlw
  blocker_lt := h.blocker_lt
  blocker_mem l w hlw d hd := by
    obtain ⟨c, hc, hcd⟩ := ha.live hd
    exact hcd.mem_iff.2 (h.blocker_mem l w hlw c hc)
  count id d hd l := by
    obtain ⟨c, hc, hcd⟩ := ha.live hd
    rw [h.count id c hc l]
    simp only [hw id c d hc hd l]

end Countermodels.Sat
