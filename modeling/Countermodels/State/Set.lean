import Countermodels.State.Basic

/-! Finite sets of states, listed in ascending order, so that equal sets are equal. -/

namespace Countermodels

structure StateSet where
  elems : List State
  ascending : elems.Pairwise (· < ·)
  deriving DecidableEq, Repr

namespace StateSet

instance : Membership State StateSet := ⟨fun a s => s ∈ a.elems⟩

instance (s : State) (a : StateSet) : Decidable (s ∈ a) := inferInstanceAs (Decidable (s ∈ a.elems))

def empty : StateSet := ⟨[], .nil⟩

def singleton (s : State) : StateSet := ⟨[s], List.pairwise_singleton ..⟩

/-- Neighbours that are equal, taken together. -/
def distinct : List State → List State
  | [] => []
  | s :: ts =>
    match distinct ts with
    | [] => [s]
    | t :: us => if s = t then t :: us else s :: t :: us

theorem mem_distinct {s : State} {ts : List State} : s ∈ distinct ts ↔ s ∈ ts := by
  induction ts with
  | nil => simp [distinct]
  | cons t ts ih =>
    unfold distinct
    rw [List.mem_cons, ← ih]
    split
    · next h => simp [h]
    · next u us h =>
      split
      · next he => subst he; simp [h]
      · simp [h]

theorem distinct_ascending {ts : List State} (h : ts.Pairwise (· ≤ ·)) :
    (distinct ts).Pairwise (· < ·) := by
  induction ts with
  | nil => simp [distinct]
  | cons t ts ih =>
    rw [List.pairwise_cons] at h
    have ih := ih h.2
    unfold distinct
    split
    · exact List.pairwise_singleton ..
    · next u us hd =>
      rw [hd] at ih
      split
      · exact ih
      · next hne =>
        have hu : u ∈ ts := mem_distinct.1 (hd ▸ List.mem_cons_self)
        have hle : t.bits ≤ u.bits := h.1 u hu
        have hbits : t.bits ≠ u.bits := fun he => hne (congrArg State.mk he)
        have htu : t.bits < u.bits := by omega
        refine List.pairwise_cons.2 ⟨fun v hv => ?_, ih⟩
        rcases List.mem_cons.1 hv with rfl | hv
        · exact htu
        · exact Nat.lt_trans htu ((List.pairwise_cons.1 ih).1 v hv)

def sorted (states : List State) : List State := states.mergeSort (fun s t => s.bits ≤ t.bits)

theorem sorted_ascending (states : List State) : (sorted states).Pairwise (· ≤ ·) := by
  refine (List.pairwise_mergeSort (fun s t u h h' => ?_) (fun s t => ?_) states).imp
    (fun h => of_decide_eq_true h)
  · exact decide_eq_true (Nat.le_trans (of_decide_eq_true h) (of_decide_eq_true h'))
  · rw [Bool.or_eq_true, decide_eq_true_eq, decide_eq_true_eq]
    exact Nat.le_total ..

def ofList (states : List State) : StateSet :=
  ⟨distinct (sorted states), distinct_ascending (sorted_ascending states)⟩

def filter (p : State → Bool) (a : StateSet) : StateSet := ⟨a.elems.filter p, a.ascending.filter p⟩

def union (a b : StateSet) : StateSet := ofList (a.elems ++ b.elems)

/-- Whether all elements of an ascending list are among those of another. -/
def included : List State → List State → Bool
  | [], _ => true
  | _ :: _, [] => false
  | s :: ss, t :: ts => if s = t then included ss ts else t < s && included (s :: ss) ts

theorem included_iff {ss ts : List State} (hs : ss.Pairwise (· < ·)) (ht : ts.Pairwise (· < ·)) :
    included ss ts ↔ ∀ s ∈ ss, s ∈ ts := by
  induction ts generalizing ss with
  | nil =>
    cases ss with
    | nil => simp [included]
    | cons s ss =>
      simp only [included, Bool.false_eq_true, false_iff]
      exact fun h => List.not_mem_nil (h s List.mem_cons_self)
  | cons t ts ih =>
    cases ss with
    | nil => simp [included]
    | cons s ss =>
      rw [List.pairwise_cons] at ht
      have hs' := List.pairwise_cons.1 hs
      unfold included
      split
      · next he =>
        subst he
        rw [ih hs'.2 ht.2]
        refine ⟨fun h u hu => ?_, fun h u hu => ?_⟩
        · exact (List.mem_cons.1 hu).elim (· ▸ List.mem_cons_self) fun hu => List.mem_cons_of_mem _ (h u hu)
        · have hlt : s.bits < u.bits := hs'.1 u hu
          refine (List.mem_cons.1 (h u (List.mem_cons_of_mem _ hu))).resolve_left fun he => ?_
          rw [he] at hlt
          exact Nat.lt_irrefl _ hlt
      · next hne =>
        rw [Bool.and_eq_true, decide_eq_true_eq, ih hs ht.2]
        refine ⟨fun h u hu => List.mem_cons_of_mem _ (h.2 u hu), fun h => ?_⟩
        have hst : s ∈ ts := (List.mem_cons.1 (h s List.mem_cons_self)).resolve_left hne
        refine ⟨ht.1 s hst, fun u hu => ?_⟩
        refine (List.mem_cons.1 (h u hu)).resolve_left fun he => ?_
        subst he
        rcases List.mem_cons.1 hu with he | hu
        · exact hne he.symm
        · exact Nat.lt_asymm (hs'.1 u hu) (ht.1 s hst)

def isSubset (a b : StateSet) : Bool := included a.elems b.elems

theorem isSubset_iff {a b : StateSet} : a.isSubset b ↔ ∀ s ∈ a, s ∈ b :=
  included_iff a.ascending b.ascending

/-- All fusions of a member of one set with a member of the other. -/
def fusions (a b : StateSet) : StateSet :=
  ofList (a.elems.flatMap fun s => b.elems.map s.fusion)

/-- All states of a space. -/
def ofSpace (space : StateSpace) : StateSet := ofList space.states

def text (a : StateSet) : String := ", ".intercalate (a.elems.map State.text)

@[simp] theorem not_mem_empty {s : State} : ¬ s ∈ empty := List.not_mem_nil

@[simp] theorem mem_ofList {s : State} {states : List State} : s ∈ ofList states ↔ s ∈ states :=
  mem_distinct.trans List.mem_mergeSort

end StateSet

end Countermodels
