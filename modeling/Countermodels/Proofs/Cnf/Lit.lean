import Countermodels.Cnf.Basic
import Mathlib

/-! Literals under assignments, and what follows from a list of clauses. -/

namespace Countermodels

namespace Lit

@[ext] theorem ext {l m : Lit} (hv : l.var = m.var) (hn : l.negated = m.negated) : l = m := by
  obtain ⟨l⟩ := l
  obtain ⟨m⟩ := m
  rw [negated, negated, Bool.eq_iff_iff, beq_iff_eq, beq_iff_eq] at hn
  simp only [var, Lit.mk.injEq] at hv hn ⊢
  omega

@[simp] theorem neg_neg (l : Lit) : l.neg.neg = l := by
  obtain ⟨l⟩ := l
  simp only [neg, Lit.mk.injEq]
  split <;> split <;> omega

@[simp] theorem var_neg (l : Lit) : l.neg.var = l.var := by
  obtain ⟨l⟩ := l
  simp only [neg, var]
  split <;> omega

@[simp] theorem negated_neg (l : Lit) : l.neg.negated = !l.negated := by
  obtain ⟨l⟩ := l
  simp only [neg, negated]
  rcases Nat.mod_two_eq_zero_or_one l with h | h
  · have : (l + 1) % 2 = 1 := by omega
    simp [h, this]
  · have : (l - 1) % 2 = 0 := by omega
    simp [h, this]

@[simp] theorem neg_inj {l m : Lit} : l.neg = m.neg ↔ l = m :=
  ⟨fun h => by rw [← l.neg_neg, h, neg_neg], fun h => h ▸ rfl⟩

theorem neg_ne (l : Lit) : l.neg ≠ l := fun h => by
  have := congrArg negated h
  simp at this

theorem eq_or_eq_neg_of_var_eq {l m : Lit} (h : l.var = m.var) : l = m ∨ l = m.neg := by
  by_cases hn : l.negated = m.negated
  · exact .inl (Lit.ext h hn)
  · refine .inr (Lit.ext (by simpa using h) ?_)
    rw [negated_neg]
    cases hl : l.negated <;> cases hm : m.negated <;> simp_all

@[simp] theorem var_ofVar (v : Nat) (b : Bool) : (ofVar v b).var = v := by
  cases b <;> simp [ofVar, var]
  omega

@[simp] theorem negated_ofVar (v : Nat) (b : Bool) : (ofVar v b).negated = b := by
  cases b <;> simp [ofVar, negated]

@[simp] theorem var_positive (v : Nat) : (positive v).var = v := by simp [positive, var]

@[simp] theorem negated_positive (v : Nat) : (positive v).negated = false := by simp [positive, negated]

theorem code_lt_iff {l : Lit} {n : Nat} : l.code < 2 * n ↔ l.var < n := by
  rw [var]
  omega

@[simp] theorem holds_neg (l : Lit) (σ : Nat → Bool) : l.neg.holds σ = !l.holds σ := by
  simp only [holds, var_neg, negated_neg]
  cases σ l.var <;> cases l.negated <;> rfl

@[simp] theorem holds_positive (v : Nat) (σ : Nat → Bool) : (positive v).holds σ = σ v := by
  simp [holds]

theorem holds_congr {l : Lit} {σ τ : Nat → Bool} (h : σ l.var = τ l.var) : l.holds σ = l.holds τ := by
  rw [holds, holds, h]

theorem anyHolds_iff {c : List Lit} {σ : Nat → Bool} :
    anyHolds c σ = true ↔ ∃ l ∈ c, l.holds σ = true := by
  simp [anyHolds]

theorem lt_span {c : List Lit} {l : Lit} (h : l ∈ c) : l.var < span c := by
  have key : ∀ (c : List Lit) (n : Nat), n ≤ c.foldl (fun n l => max n (l.var + 1)) n ∧
      ∀ l ∈ c, l.var < c.foldl (fun n l => max n (l.var + 1)) n := by
    intro c
    induction c with
    | nil => simp
    | cons m c ih =>
      intro n
      obtain ⟨hn, hc⟩ := ih (max n (m.var + 1))
      rw [List.foldl_cons]
      refine ⟨by omega, fun l hl => ?_⟩
      rcases List.mem_cons.1 hl with rfl | hl
      · omega
      · exact hc l hl
  exact (key c 0).2 l h

theorem span_le {c : List Lit} {n : Nat} (h : ∀ l ∈ c, l.var < n) : span c ≤ n := by
  have key : ∀ (c : List Lit) (k : Nat), k ≤ n → (∀ l ∈ c, l.var < n) →
      c.foldl (fun n l => max n (l.var + 1)) k ≤ n := by
    intro c
    induction c with
    | nil => exact fun k hk _ => hk
    | cons m c ih =>
      intro k hk hc
      have hm := hc m List.mem_cons_self
      have hmax : max k (m.var + 1) ≤ n := by omega
      exact ih _ hmax fun l hl => hc l (List.mem_cons_of_mem _ hl)
  exact key c 0 (Nat.zero_le _) h

/-! Lists of literals that are sorted and rid of repetitions. -/

theorem eraseReps_eq_destutter (ls : List Lit) : ls.eraseReps = ls.destutter (· ≠ ·) := by
  have hloop : ∀ (l : Lit) (ls seen : List Lit),
      List.eraseRepsBy.loop (· == ·) l ls seen = seen.reverse ++ List.destutter' (· ≠ ·) l ls := by
    intro l ls
    induction ls generalizing l with
    | nil => simp [List.eraseRepsBy.loop]
    | cons m ls ih =>
      intro seen
      rw [List.eraseRepsBy.loop]
      by_cases h : l = m
      · subst h
        simp [ih, List.destutter'_cons_neg]
      · rw [beq_false_of_ne h]
        simp [ih, h, List.destutter'_cons_pos]
  cases ls with
  | nil => rfl
  | cons l ls => exact hloop l ls []

section sorted

variable (key : Lit → Nat)

theorem pairwise_mergeSort (ls : List Lit) :
    (ls.mergeSort (fun l m => key l ≤ key m)).Pairwise fun l m => key l ≤ key m := by
  have hsorted : (ls.mergeSort (fun l m => key l ≤ key m)).Pairwise fun l m => decide (key l ≤ key m) = true := by
    refine List.pairwise_mergeSort (fun a b c => ?_) (fun a b => ?_) ls
    · simp only [decide_eq_true_eq]
      omega
    · simp only [Bool.or_eq_true, decide_eq_true_eq]
      omega
  simpa using hsorted

variable (hkey : Function.Injective key)
include hkey

/-- Sorting by a key that tells literals apart puts equal ones side by side. -/
theorem eraseReps_mergeSort (ls : List Lit) :
    (ls.mergeSort (fun l m => key l ≤ key m)).eraseReps = (ls.mergeSort (fun l m => key l ≤ key m)).dedup := by
  have : Std.Antisymm fun l m : Lit => key l ≤ key m := ⟨fun _ _ hlm hml => hkey (Nat.le_antisymm hlm hml)⟩
  rw [eraseReps_eq_destutter]
  exact (pairwise_mergeSort key ls).destutter_eq_dedup

/-- Two lists of the same literals become one list. -/
theorem dedup_mergeSort_congr {ls ms : List Lit} (h : ∀ l, l ∈ ls ↔ l ∈ ms) :
    (ls.mergeSort (fun l m => key l ≤ key m)).dedup = (ms.mergeSort (fun l m => key l ≤ key m)).dedup := by
  have hsorted : ∀ ls : List Lit, (ls.mergeSort (fun l m => key l ≤ key m)).dedup.Pairwise fun l m => key l ≤ key m :=
    fun ls => (pairwise_mergeSort key ls).sublist (List.dedup_sublist _)
  have hperm := (List.perm_ext_iff_of_nodup (List.nodup_dedup (ls.mergeSort fun l m => key l ≤ key m))
    (List.nodup_dedup (ms.mergeSort fun l m => key l ≤ key m))).2 fun l => by
      rw [List.mem_dedup, List.mem_dedup, List.mem_mergeSort, List.mem_mergeSort, h]
  exact hperm.eq_of_pairwise (fun l m _ _ hlm hml => hkey (Nat.le_antisymm hlm hml)) (hsorted ls) (hsorted ms)

end sorted

theorem code_injective : Function.Injective code := fun _ _ h => congrArg mk h

end Lit

/-- An assignment makes every clause of a list true. -/
def Models (Φ : List (List Lit)) (σ : Nat → Bool) : Prop := ∀ c ∈ Φ, Lit.anyHolds c σ = true

/-- A clause is true under every assignment that makes a list of clauses true. -/
def Entails (Φ : List (List Lit)) (c : List Lit) : Prop := ∀ σ, Models Φ σ → Lit.anyHolds c σ = true

theorem models_append {Φ Ψ : List (List Lit)} {σ : Nat → Bool} :
    Models (Φ ++ Ψ) σ ↔ Models Φ σ ∧ Models Ψ σ := List.forall_mem_append

theorem models_singleton {c : List Lit} {σ : Nat → Bool} : Models [c] σ ↔ Lit.anyHolds c σ = true :=
  List.forall_mem_singleton

namespace Entails

variable {Φ : List (List Lit)} {c d : List Lit}

theorem holds {l : Lit} (h : Entails Φ [l]) {σ : Nat → Bool} (hσ : Models Φ σ) : l.holds σ = true := by
  simpa [Lit.anyHolds] using h σ hσ

theorem append {Ψ : List (List Lit)} (h : Entails Φ c) : Entails (Φ ++ Ψ) c :=
  fun σ hσ => h σ (models_append.1 hσ).1

theorem mono (h : Entails Φ c) (hcd : ∀ l ∈ c, l ∈ d) : Entails Φ d := fun σ hσ => by
  obtain ⟨l, hl, hlσ⟩ := Lit.anyHolds_iff.1 (h σ hσ)
  exact Lit.anyHolds_iff.2 ⟨l, hcd l hl, hlσ⟩

end Entails

end Countermodels
