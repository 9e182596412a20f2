import Countermodels.History.Frame
import Countermodels.Proofs.History.Meaning
import Countermodels.Proofs.State.Parts

/-! Bundles of histories: a main history and others, closed under shifts by one step. The others can be listed in
one way so that their codes increase, and whether two bundles have the same shape does not depend on how they
are listed. -/

namespace Countermodels.History

variable {space : StateSpace} {times count : Nat} {main h k : List State} {hs ks : List (List State)}

/-- Moved by one step, the history `h` agrees with `h'` wherever both have a state. -/
def Shifted (h h' : List State) : Bool → Prop
  | true => ∀ t, t + 1 < h.length → h'[t]? = h[t + 1]?
  | false => ∀ t, t + 1 < h.length → h'[t + 1]? = h[t]?

/-- Histories through some times, each listed once, that are closed under shifts. -/
structure Bundle (space : StateSpace) (times count : Nat) (hs : List (List State)) : Prop where
  nodup : hs.Nodup
  few : hs.length ≤ count
  length : ∀ h ∈ hs, h.length = times
  states : ∀ h ∈ hs, ∀ s ∈ h, s ∈ space.states
  closed : ∀ h ∈ hs, ∀ forward, ∃ h' ∈ hs, Shifted h h' forward

/-- The histories of a bundle can be listed in any order. -/
theorem Bundle.perm (hb : Bundle space times count hs) (hperm : hs.Perm ks) : Bundle space times count ks where
  nodup := hperm.nodup_iff.1 hb.nodup
  few := hperm.length_eq ▸ hb.few
  length h hh := hb.length h (hperm.mem_iff.2 hh)
  states h hh := hb.states h (hperm.mem_iff.2 hh)
  closed h hh forward := by
    obtain ⟨h', hh', hshift⟩ := hb.closed h (hperm.mem_iff.2 hh) forward
    exact ⟨h', hperm.mem_iff.1 hh', hshift⟩

/-- The keys of the histories increase. -/
def Increasing {β : Type} [LT β] (key : List State → β) (hs : List (List State)) : Prop :=
  hs.Pairwise fun h k => key h < key k

section increasing

variable {β : Type} [Preorder β] {key : List State → β}

theorem Increasing.nodup (hh : Increasing key hs) : hs.Nodup := by
  apply List.nodup_iff_pairwise_ne.2 (hh.imp _)
  rintro h k hlt rfl
  exact lt_irrefl _ hlt

theorem Increasing.eq (hh : Increasing key hs) (hk : Increasing key ks) (h : ∀ x, x ∈ hs ↔ x ∈ ks) : hs = ks := by
  have hperm := (List.perm_ext_iff_of_nodup hh.nodup hk.nodup).2 h
  exact hperm.eq_of_pairwise (fun _ _ _ _ hlt hgt => absurd hlt (lt_asymm hgt)) hh hk

end increasing

/-! Codes of histories. -/

/-- For each time, one truth value for each state. -/
def code (space : StateSpace) (h : List State) : List Bool := h.flatMap fun s => space.states.map (decide <| · = s)

@[simp] theorem code_nil : code space [] = [] := rfl

@[simp] theorem code_cons (s : State) (h : List State) :
    code space (s :: h) = space.states.map (decide <| · = s) ++ code space h := rfl

/-- Where two histories differ, there is a place at which only the code of the first is true. -/
theorem mem_zip_code (hlen : h.length = k.length) (hh : ∀ s ∈ h, s ∈ space.states) (hne : h ≠ k) :
    (true, false) ∈ (code space h).zip (code space k) := by
  induction h generalizing k with
  | nil =>
    rw [List.length_nil] at hlen
    exact absurd (List.length_eq_zero_iff.1 hlen.symm).symm hne
  | cons s h ih =>
    cases k with
    | nil => simp at hlen
    | cons t k =>
      rw [List.forall_mem_cons] at hh
      rw [code_cons, code_cons, List.zip_append (by simp), List.mem_append]
      by_cases hst : s = t
      · right
        apply ih (by simpa using hlen) hh.2
        intro heq
        exact hne (by rw [hst, heq])
      · left
        rw [List.zip_map', List.mem_map]
        exact ⟨s, hh.1, by simp [hst]⟩

theorem eq_of_code (hlen : h.length = k.length) (hh : ∀ s ∈ h, s ∈ space.states) (heq : code space h = code space k) :
    h = k := by
  by_contra hne
  have hmem := mem_zip_code hlen hh hne
  rw [heq, ← List.map_id (code space k), List.zip_map', List.mem_map] at hmem
  obtain ⟨x, -, hx⟩ := hmem
  cases x <;> cases hx

/-- The histories after the main one can be listed so that their codes increase. -/
theorem Bundle.exists_increasing (hb : Bundle space times count (main :: hs)) :
    ∃ ks, hs.Perm ks ∧ Increasing (code space) ks := by
  have hperm : hs.Perm (hs.mergeSort fun h k => code space h ≤ code space k) := (List.mergeSort_perm hs _).symm
  refine ⟨_, hperm, ?_⟩
  have hsorted : (hs.mergeSort fun h k => code space h ≤ code space k).Pairwise fun h k =>
      decide (code space h ≤ code space k) = true :=
    List.pairwise_mergeSort (fun a b c hab hbc => by simp only [decide_eq_true_eq] at *; exact hab.trans hbc)
      (fun a b => by simpa using le_total (code space a) (code space b)) hs
  have hnodup := hperm.nodup_iff.1 (List.nodup_cons.1 hb.nodup).2
  apply (hsorted.and (List.nodup_iff_pairwise_ne.1 hnodup)).imp_of_mem
  rintro h k hh hk ⟨hle, hne⟩
  have hmem : ∀ {x}, x ∈ (hs.mergeSort fun h k => code space h ≤ code space k) → x ∈ main :: hs :=
    fun hx => List.mem_cons_of_mem _ (hperm.mem_iff.2 hx)
  have hlen : h.length = k.length := (hb.length h (hmem hh)).trans (hb.length k (hmem hk)).symm
  apply lt_of_le_of_ne (of_decide_eq_true hle)
  intro heq
  exact hne (eq_of_code hlen (hb.states h (hmem hh)) heq)

/-! Shapes. -/

theorem before_iff {h k : List State} : before h k = true ↔ h.map State.bits < k.map State.bits := by
  induction h generalizing k with
  | nil => cases k <;> simp [before]
  | cons s h ih =>
    cases k with
    | nil => simp [before]
    | cons t k =>
      have hlt : s < t ↔ s.bits < t.bits := Iff.rfl
      have heq : s = t ↔ s.bits = t.bits := by cases s; cases t; simp
      simp only [before, Bool.or_eq_true, Bool.and_eq_true, decide_eq_true_eq, ih, List.map_cons, List.cons_lt_cons_iff,
        hlt, heq]

theorem bits_injective : Function.Injective (List.map State.bits) := by
  apply List.map_injective_iff.2
  rintro ⟨s⟩ ⟨t⟩ h
  exact congrArg State.mk h

theorem mem_insert {x : List State} : x ∈ insert h hs ↔ x = h ∨ x ∈ hs := by
  induction hs with
  | nil => simp [insert]
  | cons k hs ih =>
    rw [insert]
    split
    · rw [List.mem_cons]
    · split
      · next heq => simp [heq]
      · simp only [List.mem_cons, ih]
        tauto

theorem Increasing.insert (hh : Increasing (List.map State.bits) hs) (h : List State) :
    Increasing (List.map State.bits) (insert h hs) := by
  induction hs with
  | nil => exact List.pairwise_singleton ..
  | cons k hs ih =>
    obtain ⟨hk, hhs⟩ := List.pairwise_cons.1 hh
    rw [History.insert]
    split
    · next hbefore =>
      have hlt := before_iff.1 hbefore
      exact List.pairwise_cons.2 ⟨List.forall_mem_cons.2 ⟨hlt, fun x hx => hlt.trans (hk x hx)⟩, hh⟩
    · next hbefore =>
      split
      · exact hh
      · next hne =>
        refine List.pairwise_cons.2 ⟨fun x hx => ?_, ih hhs⟩
        rcases mem_insert.1 hx with rfl | hx
        · apply lt_of_le_of_ne (not_lt.1 (mt before_iff.2 hbefore))
          intro heq
          exact hne (bits_injective heq.symm)
        · exact hk x hx

theorem mem_foldr_insert {x : List State} : x ∈ hs.foldr insert [] ↔ x ∈ hs := by
  induction hs with
  | nil => simp
  | cons h hs ih => rw [List.foldr_cons, mem_insert, ih, List.mem_cons]

theorem increasing_foldr_insert (hs : List (List State)) :
    Increasing (List.map State.bits) (hs.foldr insert []) := by
  induction hs with
  | nil => exact List.Pairwise.nil
  | cons h hs ih => exact ih.insert h

/-- Two lists of histories have the same members just if they give one list in order. -/
theorem foldr_insert_eq_iff : hs.foldr insert [] = ks.foldr insert [] ↔ ∀ x, x ∈ hs ↔ x ∈ ks := by
  constructor
  · intro heq x
    rw [← mem_foldr_insert, heq, mem_foldr_insert]
  · intro hmem
    apply (increasing_foldr_insert hs).eq (increasing_foldr_insert ks)
    intro x
    rw [mem_foldr_insert, mem_foldr_insert, hmem]

end Countermodels.History
