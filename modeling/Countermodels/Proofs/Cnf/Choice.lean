import Countermodels.Proofs.Cnf.Imposes

/-! Choices under assignments: where exactly one literal of a choice is true, the choice has a value,
and it is the only one whose literal is true. -/

namespace Countermodels

theorem filter_eq_singleton {α : Type} {xs : List α} {p : α → Bool} (hsome : ∃ x ∈ xs, p x = true)
    (hone : (xs.map p).Pairwise fun x y => x = true → y = false) : ∃ x, xs.filter p = [x] := by
  induction xs with
  | nil => simp at hsome
  | cons x xs ih =>
    rw [List.map_cons, List.pairwise_cons, List.forall_mem_map] at hone
    cases hx : p x with
    | true =>
      have hnone : xs.filter p = [] := List.filter_eq_nil_iff.2 fun y hy => by simp [hone.1 y hy hx]
      exact ⟨x, by rw [List.filter_cons_of_pos hx, hnone]⟩
    | false =>
      rw [List.filter_cons_of_neg (by simp [hx])]
      refine ih ?_ hone.2
      simpa [hx] using hsome

namespace Choice

variable {α : Type} {c : Choice α} {σ τ : Nat → Bool}

/-- Of the literals of a choice, exactly one is true. -/
structure Chosen (c : Choice α) (σ : Nat → Bool) : Prop where
  some_true : ∃ l ∈ c.lits, l.holds σ = true
  one_true : AtMostOne σ c.lits

/-- A literal for each value of the domain, and no value twice. -/
structure Regular (c : Choice α) : Prop where
  length : c.lits.length = c.domain.length
  nodup : c.domain.Nodup

/-- The value whose literal is true. -/
def value? (c : Choice α) (σ : Nat → Bool) : Option α := (c.pairs.find? (·.2.holds σ)).map (·.1)

theorem Regular.map_fst (hc : c.Regular) : c.pairs.map Prod.fst = c.domain :=
  List.map_fst_zip (Nat.le_of_eq hc.length.symm)

theorem Regular.map_snd (hc : c.Regular) : c.pairs.map Prod.snd = c.lits :=
  List.map_snd_zip (Nat.le_of_eq hc.length)

theorem Regular.exists_pair (hc : c.Regular) {a : α} (ha : a ∈ c.domain) : ∃ l, (a, l) ∈ c.pairs := by
  rw [← hc.map_fst, List.mem_map] at ha
  obtain ⟨p, hp, rfl⟩ := ha
  exact ⟨p.2, hp⟩

/-- A value has one literal. -/
theorem Regular.unique (hc : c.Regular) {a : α} {l l' : Lit} (h : (a, l) ∈ c.pairs)
    (h' : (a, l') ∈ c.pairs) : l = l' := by
  have hinj := List.inj_on_of_nodup_map (hc.map_fst ▸ hc.nodup)
  exact (Prod.mk.inj (hinj h h' rfl)).2

theorem Regular.find?_eq [DecidableEq α] (hc : c.Regular) {a : α} {l : Lit} (h : (a, l) ∈ c.pairs) :
    c.find? a = some l := by
  rw [find?]
  cases hp : c.pairs.reverse.find? (·.1 = a) with
  | none =>
    have := List.find?_eq_none.1 hp (a, l) (List.mem_reverse.2 h)
    simp at this
  | some p =>
    have hpa : p.1 = a := by simpa using List.find?_some hp
    have hmem : (a, p.2) ∈ c.pairs := by
      rw [← hpa]
      exact List.mem_reverse.1 (List.mem_of_find?_eq_some hp)
    rw [Option.map_some, hc.unique hmem h]

/-- The value of a choice, as it is read off and as its literals say. -/
theorem Chosen.value_spec (h : c.Chosen σ) (hc : c.Regular) : ∃ a ∈ c.domain, c.value? σ = some a ∧
    c.eval (·.holds σ) = .ok (some a) ∧ ∀ p ∈ c.pairs, p.2.holds σ = true ↔ p.1 = a := by
  have hone : (c.pairs.map fun p => p.2.holds σ).Pairwise fun x y => x = true → y = false := by
    have hmost := h.one_true
    rwa [AtMostOne, ← hc.map_snd, List.map_map] at hmost
  have hsome : ∃ p ∈ c.pairs, p.2.holds σ = true := by
    obtain ⟨l, hl, hlσ⟩ := h.some_true
    rw [← hc.map_snd, List.mem_map] at hl
    obtain ⟨p, hp, rfl⟩ := hl
    exact ⟨p, hp, hlσ⟩
  obtain ⟨⟨a, l⟩, hfilter⟩ := filter_eq_singleton hsome hone
  have hmem : ∀ p, p ∈ c.pairs ∧ p.2.holds σ = true ↔ p = (a, l) := fun p => by
    rw [← List.mem_singleton (b := (a, l)), ← hfilter, List.mem_filter]
  have hal := (hmem (a, l)).2 rfl
  refine ⟨a, (List.of_mem_zip hal.1).1, ?_, ?_, fun p hp => ⟨fun hpσ => ?_, fun hpa => ?_⟩⟩
  · rw [value?, ← List.head?_filter, hfilter]
    rfl
  · rw [eval, hfilter]
  · rw [(hmem p).1 ⟨hp, hpσ⟩]
  · obtain ⟨x, m⟩ := p
    dsimp only at hpa
    subst hpa
    rw [hc.unique hp hal.1]
    exact hal.2

theorem Chosen.congr (h : c.Chosen σ) (hστ : ∀ l ∈ c.lits, l.holds σ = l.holds τ) : c.Chosen τ := by
  obtain ⟨l, hl, hlσ⟩ := h.some_true
  refine ⟨⟨l, hl, hστ l hl ▸ hlσ⟩, ?_⟩
  have hmost := h.one_true
  rwa [AtMostOne, List.map_congr_left hστ] at hmost

/-- Where one literal is true, the literals have the same values just if the choice has. -/
theorem Chosen.value?_eq_iff (h : c.Chosen σ) (h' : c.Chosen τ) (hc : c.Regular) :
    c.value? σ = c.value? τ ↔ ∀ l ∈ c.lits, l.holds σ = l.holds τ := by
  constructor
  · obtain ⟨a, -, hvalue, -, hiff⟩ := h.value_spec hc
    obtain ⟨b, -, hvalue', -, hiff'⟩ := h'.value_spec hc
    intro heq l hl
    rw [hvalue, hvalue', Option.some.injEq] at heq
    obtain ⟨p, hp, rfl⟩ := List.mem_map.1 (hc.map_snd ▸ hl)
    rw [Bool.eq_iff_iff, hiff p hp, hiff' p hp, heq]
  · intro heq
    rw [value?, value?]
    exact congrArg _ (List.find?_congr fun p hp => heq p.2 (List.of_mem_zip hp).2)

/-- A choice asks only for the values of its own literals. -/
theorem eval_congr {holds holds' : Lit → Bool} (h : ∀ l ∈ c.lits, holds l = holds' l) :
    c.eval holds = c.eval holds' := by
  have hfilter : (c.pairs.filter fun p => holds p.2) = c.pairs.filter fun p => holds' p.2 :=
    List.filter_congr fun p hp => h p.2 (List.of_mem_zip hp).2
  rw [eval, eval, hfilter]

end Choice

end Countermodels
