import Countermodels.Cnf.Choice
import Countermodels.Proofs.Cnf.Gates

/-! What clauses demand. A piece of writing imposes a condition on the variables it is given if the
assignments with the condition are those that can be continued to its own variables so that its
clauses are true. The condition of a text is put together from those of its sentences. -/

namespace Countermodels

/-- The writing demands `C` of the first `n` variables, and nothing else of the variables there are. -/
structure Imposes (n : Nat) (m : StateM Cnf Unit) (C : (Nat → Bool) → Prop) : Prop where
  local_cond : ∀ σ τ, Agree n σ τ → C σ → C τ
  restricts : ∀ (b : Basis) (f : Cnf), b.Fits f → n ≤ f.numVars → b.Restricts C f (m f).2

namespace Imposes

variable {n : Nat} {m m' : StateM Cnf Unit} {C D : (Nat → Bool) → Prop}

theorem congr (h : Imposes n m C) (hCD : ∀ σ, C σ ↔ D σ) : Imposes n m D :=
  ⟨fun σ τ hστ hσ => (hCD τ).1 (h.local_cond σ τ hστ ((hCD σ).2 hσ)),
    fun b f hf hn => (h.restricts b f hf hn).congr hCD⟩

theorem pure (n : Nat) : Imposes n (Pure.pure ()) fun _ => True :=
  ⟨fun _ _ _ _ => trivial, fun _ _ hf _ => .refl hf⟩

theorem clause {c : List Lit} (hc : ∀ l ∈ c, l.var < n) :
    Imposes n (Emit.clause c) fun σ => Lit.anyHolds c σ = true := by
  refine ⟨fun σ τ hστ hσ => hστ.anyHolds hc hσ, fun b f hf hn => ?_⟩
  have hcs : ∀ d ∈ [c], ∀ l ∈ d, l.var < f.numVars := by
    rw [List.forall_mem_singleton]
    exact fun l hl => Nat.lt_of_lt_of_le (hc l hl) hn
  rw [Emit.run_clause]
  refine ⟨Basis.le_addAll hcs, hf.addAll hcs, fun τ hτ => ?_, fun σ hσ hC => ⟨σ, .refl _ _, ?_⟩⟩
  · exact models_singleton.1 ((Basis.sat_addAll hf).1 hτ).2
  · exact (Basis.sat_addAll hf).2 ⟨hσ, models_singleton.2 hC⟩

theorem seq (h : Imposes n m C) (h' : Imposes n m' D) :
    Imposes n (do m; m') fun σ => C σ ∧ D σ := by
  refine ⟨fun σ τ hστ hσ => ⟨h.local_cond σ τ hστ hσ.1, h'.local_cond σ τ hστ hσ.2⟩,
    fun b f hf hn => ?_⟩
  have hm := h.restricts b f hf hn
  exact hm.trans (h'.restricts b _ hm.fits (Nat.le_trans hn hm.le.1))
    fun σ τ hστ => h'.local_cond σ τ (hστ.mono hn)

theorem forM {α : Type} {write : α → StateM Cnf Unit} {P : α → (Nat → Bool) → Prop} {xs : List α}
    (h : ∀ x ∈ xs, Imposes n (write x) (P x)) :
    Imposes n (xs.forM write) fun σ => ∀ x ∈ xs, P x σ := by
  induction xs with
  | nil => exact (pure n).congr fun σ => by simp
  | cons x xs ih =>
    rw [List.forall_mem_cons] at h
    exact (h.1.seq (ih h.2)).congr fun σ => by simp

/-- A sentence that is written on a condition. -/
theorem ite {p : Prop} [Decidable p] (h : p → Imposes n m C) :
    Imposes n (if p then m else Pure.pure ()) fun σ => p → C σ := by
  split
  · next hp => exact (h hp).congr fun σ => by simp [hp]
  · next hp => exact (pure n).congr fun σ => by simp [hp]

/-- A sentence that is written on a condition, before the rest of the text. -/
theorem ite_before {p : Prop} [Decidable p] {rest : StateM Cnf Unit} (h : Imposes n m C) (hrest : Imposes n rest D) :
    Imposes n (if p then do m; rest else rest) fun σ => (p → C σ) ∧ D σ := by
  split
  · next hp => exact (h.seq hrest).congr fun σ => by simp [hp]
  · next hp => exact hrest.congr fun σ => by simp [hp]

/-- Two sentences that are written on a condition, before the rest of the text. -/
theorem ite_seq {p : Prop} [Decidable p] {rest : StateM Cnf Unit} {C' : (Nat → Bool) → Prop}
    (h : Imposes n m C) (h' : Imposes n m' C') (hrest : Imposes n rest D) :
    Imposes n (if p then do m; m'; rest else rest) fun σ => (p → C σ ∧ C' σ) ∧ D σ := by
  split
  · next hp => exact (h.seq (h'.seq hrest)).congr fun σ => by simp [hp, and_assoc]
  · next hp => exact hrest.congr fun σ => by simp [hp]

/-- A fresh variable may take any value that the text about it allows. -/
theorem fresh {write : Lit → StateM Cnf Unit} {P : (Nat → Bool) → Bool → Prop}
    (hP : ∀ x σ τ, Agree n σ τ → P σ x → P τ x)
    (h : ∀ l k, n ≤ k → l.var < k → Imposes k (write l) fun σ => P σ (l.holds σ)) :
    Imposes n (Emit.fresh >>= write) fun σ => ∃ x, P σ x := by
  refine ⟨fun σ τ hστ hσ => hσ.imp fun x => hP x σ τ hστ, fun b f hf hn => ?_⟩
  have hw := (h (.positive f.numVars) (f.numVars + 1) (by omega) (by simp)).restricts b f.fresh.2 hf.fresh
    (Nat.le_refl _)
  show b.Restricts _ f (write (.positive f.numVars) f.fresh.2).2
  refine ⟨Cnf.le_trans (Basis.le_fresh f) hw.le, hw.fits, fun τ hτ => ⟨_, hw.sound τ hτ⟩,
    fun σ hσ hC => ?_⟩
  obtain ⟨x, hx⟩ := hC
  have hagree := Agree.update f.numVars σ x
  have hx' : P (Function.update σ f.numVars x) ((Lit.positive f.numVars).holds
      (Function.update σ f.numVars x)) := by
    rw [Lit.holds_positive, Function.update_self]
    exact hP x _ _ (hagree.mono hn) hx
  have hσ' := hσ.congr hf hagree
  obtain ⟨τ, hστ, hτ⟩ := hw.complete _ hσ' hx'
  exact ⟨τ, hagree.trans (hστ.mono (Nat.le_succ _)), hτ⟩

theorem freshList {k : Nat} {write : List Lit → StateM Cnf Unit} {P : (Nat → Bool) → List Bool → Prop}
    (hP : ∀ xs σ τ, Agree n σ τ → P σ xs → P τ xs)
    (h : ∀ ls i, n ≤ i → (∀ l ∈ ls, l.var < i) → ls.length = k →
      Imposes i (write ls) fun σ => P σ (ls.map (·.holds σ))) :
    Imposes n (Emit.freshList k >>= write) fun σ => ∃ xs, xs.length = k ∧ P σ xs := by
  induction k generalizing n write P with
  | zero =>
    refine (h [] n (Nat.le_refl _) (by simp) rfl).congr fun σ => ?_
    simp [List.length_eq_zero_iff]
  | succ k ih =>
    have hstep : Emit.freshList (k + 1) >>= write =
        Emit.fresh >>= fun l => Emit.freshList k >>= fun ls => write (l :: ls) := by
      simp [Emit.freshList]
    rw [hstep]
    refine (fresh (P := fun σ x => ∃ xs, xs.length = k ∧ P σ (x :: xs)) ?_ fun l i hi hl => ?_).congr
      fun σ => ?_
    · exact fun x σ τ hστ hσ => hσ.imp fun xs hxs => ⟨hxs.1, hP _ σ τ hστ hxs.2⟩
    · refine ih (P := fun σ xs => P σ (l.holds σ :: xs)) (fun xs σ τ hστ hσ => ?_) fun ls j hj hls hlen => ?_
      · rw [← hστ.holds hl]
        exact hP _ σ τ (hστ.mono hi) hσ
      · exact h (l :: ls) j (Nat.le_trans hi hj)
          (List.forall_mem_cons.2 ⟨Nat.lt_of_lt_of_le hl hj, hls⟩) (by simp [hlen])
    · constructor
      · rintro ⟨x, xs, hlen, hxs⟩
        exact ⟨x :: xs, by simp [hlen], hxs⟩
      · rintro ⟨xs, hlen, hxs⟩
        cases xs with
        | nil => simp at hlen
        | cons x xs => exact ⟨x, xs, by simpa using hlen, hxs⟩

section sentences

variable {x y z : Lit} {ls : List Lit}

theorem unit (hx : x.var < n) : Imposes n (Emit.unit x) fun σ => x.holds σ = true :=
  (clause (c := [x]) (by simpa using hx)).congr fun σ => by simp [Lit.anyHolds]

theorem imply (hx : x.var < n) (hy : y.var < n) :
    Imposes n (Emit.imply x y) fun σ => x.holds σ = true → y.holds σ = true :=
  (clause (c := [x.neg, y]) (by simp [hx, hy])).congr fun σ => by
    cases hxσ : x.holds σ <;> simp [Lit.anyHolds, hxσ]

theorem implyAll (hx : x.var < n) (hls : ∀ l ∈ ls, l.var < n) :
    Imposes n (Emit.implyAll x ls) fun σ => ∀ l ∈ ls, x.holds σ = true → l.holds σ = true :=
  forM fun l hl => imply hx (hls l hl)

theorem implyAny (hx : x.var < n) (hls : ∀ l ∈ ls, l.var < n) :
    Imposes n (Emit.implyAny x ls) fun σ => x.holds σ = true → ∃ l ∈ ls, l.holds σ = true :=
  (clause (c := x.neg :: ls) (by simpa [hx] using hls)).congr fun σ => by
    cases hxσ : x.holds σ <;> simp [Lit.anyHolds, hxσ]

theorem implyImply (hx : x.var < n) (hy : y.var < n) (hz : z.var < n) :
    Imposes n (Emit.implyImply x y z) fun σ =>
      x.holds σ = true → y.holds σ = true → z.holds σ = true :=
  (clause (c := [x.neg, y.neg, z]) (by simp [hx, hy, hz])).congr fun σ => by
    cases hxσ : x.holds σ <;> cases hyσ : y.holds σ <;> simp [Lit.anyHolds, hxσ, hyσ]

theorem implyIff (hx : x.var < n) (hy : y.var < n) (hz : z.var < n) :
    Imposes n (Emit.implyIff x y z) fun σ =>
      x.holds σ = true → (y.holds σ = true ↔ z.holds σ = true) :=
  ((implyImply hx hy hz).seq (implyImply hx hz hy)).congr fun σ => by tauto

theorem iffAll (hx : x.var < n) (hls : ∀ l ∈ ls, l.var < n) :
    Imposes n (Emit.iffAll x ls) fun σ => x.holds σ = true ↔ ∀ l ∈ ls, l.holds σ = true := by
  refine ((implyAll hx hls).seq (clause (c := x :: ls.map Lit.neg) (by simpa [hx] using hls))).congr
    fun σ => ?_
  cases hxσ : x.holds σ <;> simp [Lit.anyHolds, hxσ]

end sentences

/-- A literal for each of some conditions, which implies all that the condition asks for; one of the literals
holds, or the clause holds anyway. -/
theorem witnesses {ι : Type} (asks : ι → List Lit) (xs : List ι) (c : List Lit)
    (hxs : ∀ x ∈ xs, ∀ l ∈ asks x, l.var < n) (hc : ∀ l ∈ c, l.var < n) :
    Imposes n (do
      let ws ← xs.mapM fun x => do
        let v ← Emit.fresh
        Emit.implyAll v (asks x)
        return v
      Emit.clause (c ++ ws)) fun σ => (∃ l ∈ c, l.holds σ = true) ∨ ∃ x ∈ xs, ∀ l ∈ asks x, l.holds σ = true := by
  induction xs generalizing n c with
  | nil =>
    refine (clause (c := c ++ []) (by simpa using hc)).congr fun σ => ?_
    simp [Lit.anyHolds_iff]
  | cons x xs ih =>
    rw [List.forall_mem_cons] at hxs
    simp only [List.mapM_cons, bind_assoc, pure_bind]
    refine (fresh (P := fun σ v => (∀ l ∈ asks x, v = true → l.holds σ = true) ∧
        ((∃ l ∈ c, l.holds σ = true) ∨ v = true ∨ ∃ y ∈ xs, ∀ l ∈ asks y, l.holds σ = true))
      (fun v σ τ hστ hσ => ?_) fun v i hi hv => ?_).congr fun σ => ?_
    · have hsame : ∀ {l : Lit}, l.var < n → l.holds τ = l.holds σ := fun hl => (hστ.holds hl).symm
      refine ⟨fun l hl hv => (hsame (hxs.1 l hl)).trans (hσ.1 l hl hv), hσ.2.imp (fun h => ?_) (Or.imp_right fun h => ?_)⟩
      · obtain ⟨l, hl, hlσ⟩ := h
        exact ⟨l, hl, (hsame (hc l hl)).trans hlσ⟩
      · obtain ⟨y, hy, hall⟩ := h
        exact ⟨y, hy, fun l hl => (hsame (hxs.2 y hy l hl)).trans (hall l hl)⟩
    · have hc' : ∀ l ∈ c ++ [v], l.var < i := by
        rw [List.forall_mem_append, List.forall_mem_singleton]
        exact ⟨fun l hl => Nat.lt_of_lt_of_le (hc l hl) hi, hv⟩
      have hrest := ih (c ++ [v]) (fun y hy l hl => Nat.lt_of_lt_of_le (hxs.2 y hy l hl) hi) hc'
      simp only [List.append_assoc, List.singleton_append] at hrest
      refine ((implyAll hv fun l hl => Nat.lt_of_lt_of_le (hxs.1 l hl) hi).seq hrest).congr fun σ => ?_
      simp [or_and_right, exists_or, or_assoc]
    · constructor
      · rintro ⟨v, himp, h | h | ⟨y, hy, h⟩⟩
        · exact .inl h
        · exact .inr ⟨x, List.mem_cons_self, fun l hl => himp l hl h⟩
        · exact .inr ⟨y, List.mem_cons_of_mem _ hy, h⟩
      · rintro (h | ⟨y, hy, h⟩)
        · exact ⟨false, by simp, .inl h⟩
        · rcases List.mem_cons.1 hy with rfl | hy
          · exact ⟨true, fun l hl _ => h l hl, .inr (.inl rfl)⟩
          · exact ⟨false, by simp, .inr (.inr ⟨y, hy, h⟩)⟩

end Imposes

/-- Of two literals of the list, at most one is true. -/
def AtMostOne (σ : Nat → Bool) (lits : List Lit) : Prop :=
  (lits.map (·.holds σ)).Pairwise fun x y => x = true → y = false

theorem atMostOne_cons {σ : Nat → Bool} {l : Lit} {ls : List Lit} : AtMostOne σ (l :: ls) ↔
    (∀ y ∈ ls.map (·.holds σ), l.holds σ = true → y = false) ∧ AtMostOne σ ls := by
  rw [AtMostOne, List.map_cons, List.pairwise_cons, AtMostOne]

/-- The counters say, after each literal, whether one was true. -/
def Counted : Bool → List Bool → List Bool → Prop
  | counter, x :: xs, next :: counters =>
    ((x = true → next = true) ∧ (counter = true → next = true) ∧ (counter = true → x = false)) ∧
      Counted next xs counters
  | counter, [last], [] => counter = true → last = false
  | _, _, _ => True

/-- Counters exist just if at most one is true, and none once one was counted. -/
theorem counted_iff {counter : Bool} {x : Bool} {xs : List Bool} :
    (∃ counters : List Bool, counters.length = xs.length ∧ Counted counter (x :: xs) counters) ↔
      (counter = true → ∀ y ∈ x :: xs, y = false) ∧ (x :: xs).Pairwise fun x y => x = true → y = false := by
  induction xs generalizing counter x with
  | nil =>
    simp [List.length_eq_zero_iff, Counted]
  | cons y ys ih =>
    have hsplit : (∃ counters : List Bool, counters.length = (y :: ys).length ∧
        Counted counter (x :: y :: ys) counters) ↔
        ∃ next, ((x = true → next = true) ∧ (counter = true → next = true) ∧ (counter = true → x = false)) ∧
          ∃ counters : List Bool, counters.length = ys.length ∧ Counted next (y :: ys) counters := by
      constructor
      · rintro ⟨counters, hlen, h⟩
        cases counters with
        | nil => simp at hlen
        | cons next counters => exact ⟨next, h.1, counters, by simpa using hlen, h.2⟩
      · rintro ⟨next, h, counters, hlen, hc⟩
        exact ⟨next :: counters, by simp [hlen], h, hc⟩
    rw [hsplit]
    simp only [ih]
    constructor
    · rintro ⟨next, ⟨hx, hc, hcx⟩, hnext, hpair⟩
      refine ⟨fun h => List.forall_mem_cons.2 ⟨hcx h, hnext (hc h)⟩, List.pairwise_cons.2 ⟨fun z hz h => ?_, hpair⟩⟩
      exact hnext (hx h) z hz
    · rintro ⟨hc, hpair⟩
      rw [List.pairwise_cons] at hpair
      refine ⟨x || counter, ⟨fun h => by rw [h, Bool.true_or], fun h => by rw [h, Bool.or_true], fun h => ?_⟩,
        fun h z hz => ?_, hpair.2⟩
      · exact hc h x List.mem_cons_self
      rcases Bool.or_eq_true_iff.1 h with h | h
      · exact hpair.1 z hz h
      · exact hc h z (List.mem_cons_of_mem _ hz)

namespace Imposes

variable {n : Nat} {lits : List Lit}

theorem atMostOnePairwise (h : ∀ l ∈ lits, l.var < n) :
    Imposes n (Emit.atMostOnePairwise lits) fun σ => AtMostOne σ lits := by
  induction lits with
  | nil => exact (pure n).congr fun σ => by simp [AtMostOne]
  | cons l ls ih =>
    rw [List.forall_mem_cons] at h
    have hfirst : Imposes n (ls.forM fun m => Emit.imply l m.neg) fun σ =>
        ∀ m ∈ ls, l.holds σ = true → m.neg.holds σ = true :=
      forM fun m hm => imply h.1 (by simpa using h.2 m hm)
    exact (hfirst.seq (ih h.2)).congr fun σ => by simp [AtMostOne]

theorem atMostOneFrom {counter : Lit} {counters : List Lit} (hlen : lits.length = counters.length + 1)
    (hc : counter.var < n) (h : ∀ l ∈ lits, l.var < n) (hcs : ∀ l ∈ counters, l.var < n) :
    Imposes n (Emit.atMostOneFrom counter lits counters) fun σ =>
      Counted (counter.holds σ) (lits.map (·.holds σ)) (counters.map (·.holds σ)) := by
  induction counters generalizing counter lits with
  | nil =>
    obtain ⟨last, rfl⟩ := List.length_eq_one_iff.1 hlen
    have hneg : last.neg.var < n := by simpa using h
    exact (imply hc hneg).congr fun σ => by simp [Counted]
  | cons next counters ih =>
    cases lits with
    | nil => simp at hlen
    | cons l ls =>
      rw [List.forall_mem_cons] at h hcs
      have hneg : l.neg.var < n := by simpa using h.1
      have hrest := ih (by simpa using hlen) hcs.1 h.2 hcs.2
      exact ((imply h.1 hcs.1).seq ((imply hc hcs.1).seq ((imply hc hneg).seq hrest))).congr
        fun σ => by simp [Counted, and_assoc]

theorem atMostOneSequential (h : ∀ l ∈ lits, l.var < n) :
    Imposes n (Emit.atMostOneSequential lits) fun σ => AtMostOne σ lits := by
  cases lits with
  | nil => exact (pure n).congr fun σ => by simp [AtMostOne]
  | cons l lits =>
    cases lits with
    | nil => exact (pure n).congr fun σ => by simp [AtMostOne]
    | cons m ls =>
      have hl : ∀ l' ∈ l :: m :: ls, ∀ σ τ, Agree n σ τ → l'.holds σ = l'.holds τ :=
        fun l' hl' σ τ hστ => hστ.holds (h l' hl')
      have hmap : ∀ σ τ, Agree n σ τ → (m :: ls).map (·.holds σ) = (m :: ls).map (·.holds τ) :=
        fun σ τ hστ => List.map_congr_left fun l' hl' => hl l' (List.mem_cons_of_mem _ hl') σ τ hστ
      refine (fresh (P := fun σ c => ∃ cs, cs.length = ls.length ∧ (l.holds σ = true → c = true) ∧
        Counted c ((m :: ls).map (·.holds σ)) cs) ?_ fun counter i hi hc => ?_).congr fun σ => ?_
      · intro c σ τ hστ hσ
        rw [← hmap σ τ hστ, ← hl l List.mem_cons_self σ τ hστ]
        exact hσ
      · refine freshList (P := fun σ cs => (l.holds σ = true → counter.holds σ = true) ∧
          Counted (counter.holds σ) ((m :: ls).map (·.holds σ)) cs) ?_ fun counters j hj hcs hlen => ?_
        · intro cs σ τ hστ hσ
          rw [← hmap σ τ (hστ.mono hi), ← hl l List.mem_cons_self σ τ (hστ.mono hi), ← hστ.holds hc]
          exact hσ
        · have hk : ∀ l' ∈ l :: m :: ls, l'.var < j := fun l' hl' =>
            Nat.lt_of_lt_of_le (h l' hl') (Nat.le_trans hi hj)
          rw [List.forall_mem_cons] at hk
          have hcj := Nat.lt_of_lt_of_le hc hj
          exact (imply hk.1 hcj).seq (atMostOneFrom (by simp [hlen]) hcj hk.2 hcs)
      · have hcounted : ∀ c : Bool, (∃ cs : List Bool, cs.length = ls.length ∧
            (l.holds σ = true → c = true) ∧ Counted c ((m :: ls).map (·.holds σ)) cs) ↔
            (l.holds σ = true → c = true) ∧ (c = true → ∀ y ∈ (m :: ls).map (·.holds σ), y = false) ∧
              AtMostOne σ (m :: ls) := by
          intro c
          rw [AtMostOne, List.map_cons, ← counted_iff, List.length_map]
          exact ⟨fun h => by obtain ⟨cs, hlen, hl, hcs⟩ := h; exact ⟨hl, cs, hlen, hcs⟩,
            fun h => by obtain ⟨hl, cs, hlen, hcs⟩ := h; exact ⟨cs, hlen, hl, hcs⟩⟩
        simp only [hcounted]
        rw [atMostOne_cons (l := l)]
        constructor
        · rintro ⟨c, hlc, hc, hpair⟩
          exact ⟨fun y hy hl => hc (hlc hl) y hy, hpair⟩
        · rintro ⟨hl, hpair⟩
          exact ⟨l.holds σ, id, fun h y hy => hl y hy h, hpair⟩

/-- Exactly one literal of a list is true. -/
theorem exactlyOne (h : ∀ l ∈ lits, l.var < n) :
    Imposes n (Emit.exactlyOne lits) fun σ => (∃ l ∈ lits, l.holds σ = true) ∧ AtMostOne σ lits := by
  have hmost : Imposes n (Emit.atMostOne lits) fun σ => AtMostOne σ lits := by
    rw [Emit.atMostOne]
    split
    · exact atMostOnePairwise h
    · exact atMostOneSequential h
  exact ((clause h).congr fun σ => Lit.anyHolds_iff).seq hmost

end Imposes

/-! Variables that are asked for before anything is written about them. -/

namespace Cnf

/-- Some more variables. -/
def widen (f : Cnf) (k : Nat) : Cnf := { f with numVars := f.numVars + k }

theorem le_widen (f : Cnf) (k : Nat) : f ≤ f.widen k := ⟨Nat.le_add_right _ _, List.prefix_rfl⟩

end Cnf

/-- The values on new variables are free. -/
def Agree.fill (n : Nat) (σ value : Nat → Bool) : Nat → Bool :=
  fun v => if v < n then σ v else value (v - n)

theorem Agree.fill_agree (n : Nat) (σ value : Nat → Bool) : Agree n σ (fill n σ value) :=
  fun v hv => by simp [fill, hv]

@[simp] theorem Agree.fill_add (n i : Nat) (σ value : Nat → Bool) : fill n σ value (n + i) = value i := by
  simp [fill]

namespace Basis

variable {b : Basis} {f : Cnf}

theorem Fits.widen (hf : b.Fits f) (k : Nat) : b.Fits (f.widen k) where
  numVars_le := Nat.le_trans hf.numVars_le (Nat.le_add_right _ _)
  size_le := hf.size_le
  known c hc l hl := Nat.lt_of_lt_of_le (hf.known c hc l hl) (Nat.le_add_right _ _)

theorem Sat.fill {σ : Nat → Bool} (hf : b.Fits f) (hσ : b.Sat f σ) (k : Nat) (value : Nat → Bool) :
    b.Sat (f.widen k) (Agree.fill f.numVars σ value) := by
  have h := hσ.congr hf (Agree.fill_agree f.numVars σ value)
  exact h

end Basis

namespace Emit

theorem run_freshList (k : Nat) (f : Cnf) :
    freshList k f = ((List.range k).map fun i => .positive (f.numVars + i), f.widen k) := by
  induction k generalizing f with
  | zero => rfl
  | succ k ih =>
    show ((_ : Lit) :: (freshList k f.fresh.2).1, (freshList k f.fresh.2).2) = _
    rw [ih, List.range_succ_eq_map, List.map_cons, List.map_map]
    simp only [Cnf.fresh, Cnf.widen, Nat.add_zero, Prod.mk.injEq, List.cons.injEq, true_and,
      Cnf.mk.injEq, and_true]
    exact ⟨List.map_congr_left fun i _ => by simp [Nat.add_assoc, Nat.add_comm 1], by omega⟩

theorem run_freshArray (k : Nat) (f : Cnf) :
    freshArray k f = (((List.range k).map fun i => .positive (f.numVars + i)).toArray, f.widen k) := by
  show ((freshList k f).1.toArray, (freshList k f).2) = _
  rw [run_freshList]

end Emit

end Countermodels
