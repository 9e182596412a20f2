import Countermodels.Proofs.Formula.Subformulas

/-! Meanings of letters, as they are set one after the other. -/

namespace Countermodels

namespace Atom

theorem name_inj {a b : Atom} (h : a.name = b.name) : a = b := by
  obtain ⟨a, ha⟩ := a
  obtain ⟨b, hb⟩ := b
  dsimp only at h
  subst h
  rfl

/-- The letters are in alphabetical order, each once. -/
def Alphabetical (letters : List Atom) : Prop := letters.Pairwise fun a b => a.name < b.name

theorem Alphabetical.insert {letters : List Atom} (h : Alphabetical letters) (a : Atom) :
    Alphabetical (Atom.insert a letters) := by
  induction letters with
  | nil => exact List.pairwise_singleton ..
  | cons b rest ih =>
    obtain ⟨hb, hrest⟩ := List.pairwise_cons.1 h
    unfold Atom.insert
    split
    · next hab => exact List.pairwise_cons.2 ⟨List.forall_mem_cons.2 ⟨hab, fun c hc => hab.trans (hb c hc)⟩, h⟩
    · next hab =>
      split
      · exact h
      · next hne =>
        refine List.pairwise_cons.2 ⟨fun c hc => ?_, ih hrest⟩
        rcases mem_insert.1 hc with rfl | hc
        · exact lt_of_le_of_ne (not_lt.1 hab) fun heq => hne (name_inj heq.symm)
        · exact hb c hc

theorem alphabetical_sorted (letters : List Atom) : Alphabetical (sorted letters) := by
  induction letters with
  | nil => exact List.Pairwise.nil
  | cons a rest ih => exact ih.insert a

theorem Alphabetical.nodup {letters : List Atom} (h : Alphabetical letters) : letters.Nodup := by
  refine List.nodup_iff_pairwise_ne.2 (h.imp fun hab heq => ?_)
  subst heq
  exact lt_irrefl _ hab

theorem Alphabetical.eq {xs ys : List Atom} (hx : Alphabetical xs) (hy : Alphabetical ys)
    (h : ∀ a, a ∈ xs ↔ a ∈ ys) : xs = ys :=
  ((List.perm_ext_iff_of_nodup hx.nodup hy.nodup).2 h).eq_of_pairwise
    (fun _ _ _ _ hab hba => absurd hab (lt_asymm hba)) hx hy

end Atom

namespace Valuation

variable {α : Type} {v : Valuation α} {a b : Atom} {x : α}

theorem mem_of_meaning? (h : v.meaning? a = some x) : (a, x) ∈ v := by
  rw [meaning?, Option.map_eq_some_iff] at h
  obtain ⟨p, hp, rfl⟩ := h
  have hpa : p.1 = a := by simpa using List.find?_some hp
  exact hpa ▸ List.mem_of_find?_eq_some hp

theorem mem_set {p : Atom × α} (h : p ∈ v.set a x) : p = (a, x) ∨ p ∈ v := by
  induction v with
  | nil => simpa [set] using h
  | cons q rest ih =>
    obtain ⟨b, y⟩ := q
    rw [set] at h
    split at h
    · simpa using h
    · split at h
      · rcases List.mem_cons.1 h with h | h
        · exact .inl h
        · exact .inr (List.mem_cons_of_mem _ h)
      · rcases List.mem_cons.1 h with h | h
        · exact .inr (h ▸ List.mem_cons_self)
        · exact (ih h).imp id (List.mem_cons_of_mem _)

theorem meaning?_set (v : Valuation α) (a b : Atom) (x : α) :
    (v.set a x).meaning? b = if a = b then some x else v.meaning? b := by
  induction v with
  | nil => by_cases h : a = b <;> simp [set, meaning?, h]
  | cons q rest ih =>
    obtain ⟨c, y⟩ := q
    rw [set]
    split
    · by_cases h : a = b <;> simp [meaning?, h]
    · split
      · next hac => by_cases h : a = b <;> simp [meaning?, ← hac, h]
      · next hac =>
        by_cases hcb : c = b
        · have hab : a ≠ b := fun h => hac (h.trans hcb.symm)
          simp [meaning?, hcb, hab]
        · simpa [meaning?, hcb] using ih

theorem foldl_set (pairs : List (Atom × α)) (v : Valuation α) :
    (∀ p ∈ pairs.foldl (fun v p => v.set p.1 p.2) v, p ∈ v ∨ p ∈ pairs) ∧
    ∀ a, (v.meaning? a).isSome ∨ a ∈ pairs.map (·.1) →
      ((pairs.foldl (fun v p => v.set p.1 p.2) v).meaning? a).isSome := by
  induction pairs generalizing v with
  | nil => simp
  | cons q pairs ih =>
    obtain ⟨hmem, hsome⟩ := ih (v.set q.1 q.2)
    refine ⟨fun p hp => ?_, fun a ha => hsome a ?_⟩
    · rcases hmem p hp with h | h
      · rcases mem_set h with h | h
        · exact .inr (h ▸ List.mem_cons_self)
        · exact .inl h
      · exact .inr (List.mem_cons_of_mem _ h)
    · rw [meaning?_set]
      split
      · exact .inl rfl
      · next hne => simpa [Ne.symm hne] using ha

theorem mem_ofList {pairs : List (Atom × α)} {p : Atom × α} (h : p ∈ ofList pairs) : p ∈ pairs := by
  simpa using (foldl_set pairs []).1 p h

/-- The letters that have a meaning. -/
def letters (v : Valuation α) : List Atom := v.map Prod.fst

theorem letters_set (v : Valuation α) (a : Atom) (x : α) :
    (v.set a x).letters = Atom.insert a v.letters := by
  induction v with
  | nil => rfl
  | cons q rest ih =>
    obtain ⟨b, y⟩ := q
    simp only [letters, List.map_cons, set, Atom.insert] at ih ⊢
    split
    · rfl
    · split
      · next h => simp [h]
      · rw [List.map_cons, ih]

/-- The letters of a list of meanings, in order. -/
theorem letters_ofList (pairs : List (Atom × α)) :
    (ofList pairs).letters = Atom.sorted (pairs.map Prod.fst) := by
  have hfold : ∀ (pairs : List (Atom × α)) (v : Valuation α), Atom.Alphabetical v.letters →
      Atom.Alphabetical (pairs.foldl (fun v p => v.set p.1 p.2) v).letters ∧
        ∀ a, a ∈ (pairs.foldl (fun v p => v.set p.1 p.2) v).letters ↔ a ∈ v.letters ∨ a ∈ pairs.map Prod.fst := by
    intro pairs
    induction pairs with
    | nil => exact fun v hv => ⟨hv, fun a => by simp⟩
    | cons q pairs ih =>
      intro v hv
      have hset : Atom.Alphabetical (v.set q.1 q.2).letters := by
        rw [letters_set]
        exact hv.insert q.1
      obtain ⟨hsorted, hmem⟩ := ih _ hset
      refine ⟨hsorted, fun a => (hmem a).trans ?_⟩
      rw [letters_set, Atom.mem_insert, List.map_cons, List.mem_cons]
      tauto
  obtain ⟨hsorted, hmem⟩ := hfold pairs [] List.Pairwise.nil
  exact hsorted.eq (Atom.alphabetical_sorted _) fun a => (hmem a).trans (by simp [letters])

theorem meaning?_of_mem (hv : v.letters.Nodup) (h : (a, x) ∈ v) : v.meaning? a = some x := by
  cases hp : List.find? (fun p => p.1 = a) v with
  | none =>
    have := List.find?_eq_none.1 hp (a, x) h
    simp at this
  | some p =>
    have hpa : p.1 = a := by simpa using List.find?_some hp
    have heq := List.inj_on_of_nodup_map hv (List.mem_of_find?_eq_some hp) h hpa
    rw [meaning?, hp, Option.map_some, heq]

theorem mem_letters_iff : a ∈ v.letters ↔ ∃ x, v.meaning? a = some x := by
  constructor
  · intro h
    obtain ⟨p, hp, rfl⟩ := List.mem_map.1 h
    cases hq : List.find? (fun q => q.1 = p.1) v with
    | none =>
      have := List.find?_eq_none.1 hq p hp
      simp at this
    | some q => exact ⟨q.2, by rw [meaning?, hq, Option.map_some]⟩
  · rintro ⟨x, hx⟩
    exact List.mem_map.2 ⟨(a, x), mem_of_meaning? hx, rfl⟩

/-- Two valuations of the same letters are the same if all letters have the same meanings. -/
theorem map_eq {β : Type} {w : Valuation β} {F : α → β} (hw : w.letters.Nodup) (hletters : v.letters = w.letters)
    (h : ∀ p ∈ v, w.meaning? p.1 = some (F p.2)) : v.map (fun p => (p.1, F p.2)) = w := by
  have hlen : v.length = w.length := by simpa [letters] using congrArg List.length hletters
  apply List.ext_getElem (by simpa using hlen)
  intro i hi hi'
  have hv : i < v.length := by simpa using hi
  have hname : v[i].1 = w[i].1 := by
    have hget : v.letters[i]? = w.letters[i]? := by rw [hletters]
    simpa [letters, hv, hi'] using hget
  have hmeaning := meaning?_of_mem hw (a := w[i].1) (x := w[i].2) (List.getElem_mem hi')
  rw [← hname, h v[i] (List.getElem_mem hv), Option.some.injEq] at hmeaning
  rw [List.getElem_map, hmeaning, hname]

end Valuation

end Countermodels
