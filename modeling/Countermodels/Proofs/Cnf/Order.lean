import Countermodels.Cnf.Order
import Countermodels.Proofs.Cnf.Imposes

/-! Lexicographic order between lists of truth values, false before true, as its clauses demand it. -/

namespace Countermodels

/-- The first list comes no later than the second, or before it when `strict`. -/
def Ordered (strict : Bool) : List Bool → List Bool → Prop
  | x :: xs, y :: ys => (x = true → y = true) ∧ (x = y → Ordered strict xs ys)
  | _, _ => strict = false

/-- Lists of one length are ordered as lists of truth values are. -/
theorem ordered_iff {strict : Bool} {xs ys : List Bool} (h : xs.length = ys.length) :
    Ordered strict xs ys ↔ xs < ys ∨ strict = false ∧ xs = ys := by
  induction xs generalizing ys with
  | nil =>
    cases ys with
    | nil => simp [Ordered]
    | cons y ys => simp at h
  | cons x xs ih =>
    cases ys with
    | nil => simp at h
    | cons y ys =>
      rw [Ordered, ih (by simpa using h), List.cons_lt_cons_iff, List.cons.injEq]
      cases x <;> cases y <;> simp

theorem ordered_iff_le {xs ys : List Bool} (h : xs.length = ys.length) : Ordered false xs ys ↔ xs ≤ ys := by
  rw [ordered_iff h, le_iff_lt_or_eq, and_iff_right rfl]

theorem ordered_iff_lt {xs ys : List Bool} (h : xs.length = ys.length) : Ordered true xs ys ↔ xs < ys := by
  simp [ordered_iff h]

/-- A condition that may be left out. -/
def holdsOpt (σ : Nat → Bool) (l : Option Lit) : Prop := ∀ m ∈ l, m.holds σ = true

namespace Imposes

variable {n : Nat}

/-- A clause that is only to hold under two conditions. -/
theorem excused {guard equal : Option Lit} {c : List Lit} (hg : ∀ l ∈ guard, l.var < n)
    (he : ∀ l ∈ equal, l.var < n) (hc : ∀ l ∈ c, l.var < n) :
    Imposes n (Emit.clause ((guard.toList ++ equal.toList).map Lit.neg ++ c)) fun σ =>
      holdsOpt σ guard → holdsOpt σ equal → ∃ l ∈ c, l.holds σ = true := by
  refine (clause ?_).congr fun σ => ?_
  · simp only [List.forall_mem_append, List.forall_mem_map, Lit.var_neg, Option.mem_toList]
    exact ⟨⟨hg, he⟩, hc⟩
  · rw [Lit.anyHolds_iff]
    cases guard with
    | none => cases equal with
      | none => simp [holdsOpt]
      | some e => cases hσ : e.holds σ <;> simp [holdsOpt, hσ]
    | some g => cases equal with
      | none => cases hσ : g.holds σ <;> simp [holdsOpt, hσ]
      | some e => cases hσ : g.holds σ <;> cases hτ : e.holds σ <;> simp [holdsOpt, hσ, hτ]

/-- Of two truth values in order, the mark that they are equal satisfies the clauses that call for it. -/
theorem marks_equal {x y : Bool} (h : x = true → y = true) :
    (x = false ∨ y = true) ∧ (x = false ∨ (x == y) = true) ∧ (y = true ∨ (x == y) = true) := by
  cases x with
  | false => cases y <;> simp
  | true => simp [h rfl]

theorem lexOrderFrom {guard equal : Option Lit} {strict : Bool} {xs ys : List Lit}
    (hlen : xs.length = ys.length) (hg : ∀ l ∈ guard, l.var < n) (he : ∀ l ∈ equal, l.var < n)
    (hx : ∀ l ∈ xs, l.var < n) (hy : ∀ l ∈ ys, l.var < n) :
    Imposes n (Emit.lexOrderFrom guard strict equal xs ys) fun σ =>
      holdsOpt σ guard → holdsOpt σ equal → Ordered strict (xs.map (·.holds σ)) (ys.map (·.holds σ)) := by
  induction xs generalizing n equal ys with
  | nil =>
    cases ys with
    | cons y ys => simp at hlen
    | nil =>
      cases strict with
      | false => exact (pure n).congr fun σ => by simp [Ordered]
      | true =>
        have h := excused hg he (c := []) (by simp)
        rw [List.append_nil] at h
        exact h.congr fun σ => by simp [Ordered]
  | cons x xs ih =>
    cases ys with
    | nil => simp at hlen
    | cons y ys =>
      rw [List.forall_mem_cons] at hx hy
      have hlen' : xs.length = ys.length := by simpa using hlen
      unfold Emit.lexOrderFrom
      split
      · next hxy =>
        subst hxy
        exact (ih hlen' hg he hx.2 hy.2).congr fun σ => by simp [Ordered]
      have hnext : Imposes n (Emit.fresh >>= fun next => do
          Emit.clause ((guard.toList ++ equal.toList).map Lit.neg ++ [x.neg, next])
          Emit.clause ((guard.toList ++ equal.toList).map Lit.neg ++ [y, next])
          Emit.lexOrderFrom guard strict (some next) xs ys) fun σ => ∃ v,
            (holdsOpt σ guard → holdsOpt σ equal → x.holds σ = false ∨ v = true) ∧
            (holdsOpt σ guard → holdsOpt σ equal → y.holds σ = true ∨ v = true) ∧
            (holdsOpt σ guard → v = true → Ordered strict (xs.map (·.holds σ)) (ys.map (·.holds σ))) := by
        refine fresh (fun v σ τ hστ hσ => ?_) fun next k hk hnext => ?_
        · have hopt : ∀ o : Option Lit, (∀ l ∈ o, l.var < n) → (holdsOpt σ o ↔ holdsOpt τ o) :=
            fun o ho => forall₂_congr fun l hl => by rw [hστ.holds (ho l hl)]
          have hmap : ∀ ls : List Lit, (∀ l ∈ ls, l.var < n) → ls.map (·.holds σ) = ls.map (·.holds τ) :=
            fun ls hls => List.map_congr_left fun l hl => hστ.holds (hls l hl)
          rwa [← hopt guard hg, ← hopt equal he, ← hmap xs hx.2, ← hmap ys hy.2, ← hστ.holds hx.1,
            ← hστ.holds hy.1]
        · have hlt : ∀ {l : Lit}, l.var < n → l.var < k := fun hl => Nat.lt_of_lt_of_le hl hk
          have hg' : ∀ l ∈ guard, l.var < k := fun l hl => hlt (hg l hl)
          have he' : ∀ l ∈ equal, l.var < k := fun l hl => hlt (he l hl)
          have h₁ := excused hg' he' (c := [x.neg, next]) (by simp [hlt hx.1, hnext])
          have h₂ := excused hg' he' (c := [y, next]) (by simp [hlt hy.1, hnext])
          have h₃ := ih hlen' hg' (show ∀ l ∈ some next, l.var < k by simpa using hnext) (fun l hl => hlt (hx.2 l hl))
            (fun l hl => hlt (hy.2 l hl))
          exact (h₁.seq (h₂.seq h₃)).congr fun σ => by simp [holdsOpt]
      refine ((excused hg he (c := [x.neg, y]) (by simp [hx.1, hy.1])).seq hnext).congr fun σ => ?_
      simp only [List.map_cons, Ordered]
      constructor
      · rintro ⟨hxy, v, hv₁, hv₂, hv₃⟩ hG hE
        have hxy := hxy hG hE
        refine ⟨fun h => by simpa [h] using hxy, fun h => hv₃ hG ?_⟩
        rcases hv₁ hG hE with hfalse | hv
        · exact (hv₂ hG hE).resolve_left (by simp [← h, hfalse])
        · exact hv
      · intro h
        by_cases hGE : holdsOpt σ guard ∧ holdsOpt σ equal
        · obtain ⟨hle, hrest⟩ := h hGE.1 hGE.2
          obtain ⟨hor, hfirst, hsecond⟩ := marks_equal hle
          refine ⟨fun _ _ => ?_, x.holds σ == y.holds σ, fun _ _ => hfirst, fun _ _ => hsecond, fun _ hv => ?_⟩
          · simpa using hor
          · exact hrest (by simpa using hv)
        · exact ⟨fun hG hE => absurd ⟨hG, hE⟩ hGE, false, fun hG hE => absurd ⟨hG, hE⟩ hGE,
            fun hG hE => absurd ⟨hG, hE⟩ hGE, fun _ hv => by cases hv⟩

theorem lexOrder (guard : Option Lit) (strict : Bool) {xs ys : List Lit} (hlen : xs.length = ys.length)
    (hg : ∀ l ∈ guard, l.var < n) (hx : ∀ l ∈ xs, l.var < n) (hy : ∀ l ∈ ys, l.var < n) :
    Imposes n (Emit.lexOrder guard xs ys strict) fun σ =>
      holdsOpt σ guard → Ordered strict (xs.map (·.holds σ)) (ys.map (·.holds σ)) :=
  (lexOrderFrom hlen hg (show ∀ l ∈ (none : Option Lit), l.var < n by simp) hx hy).congr fun σ => by simp [holdsOpt]

end Imposes

end Countermodels
