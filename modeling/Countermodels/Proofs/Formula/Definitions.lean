import Countermodels.Formula.Definitions
import Countermodels.Proofs.Formula.Subformulas

/-! Registering derived operators. A definition is refused exactly when it leads back to its operator, so that the
definitions that are accepted never run in a circle, however often operators are defined anew. A chain of definitions then
passes each derived operator at most once, which bounds its length by their number. -/

namespace Countermodels.Definitions

open Relation

variable {d : Definitions} {op via target : Operator} {body : Body}

/-- The definition of the first operator mentions the second. -/
def Mentions (d : Definitions) (op other : Operator) : Prop := other ∈ d.mentions op

/-- No operator leads back to itself through definitions. -/
def Acyclic (d : Definitions) : Prop := ∀ op, ¬ TransGen d.Mentions op op

theorem mentions_iff {other : Operator} : d.Mentions op other ↔ ∃ body, d.body? op = some body ∧ other ∈ body.operators := by
  unfold Mentions mentions
  cases d.body? op <;> simp

/-! The search for a way back. -/

section search

variable {unseen waiting : List Operator}

/-- The operators that have been followed do not include the target, and what they mention was followed as well or is
waiting. -/
structure Followed (d : Definitions) (target : Operator) (unseen waiting : List Operator) : Prop where
  nodup : unseen.Nodup
  target_unseen : target ∈ unseen
  closed : ∀ op ∉ unseen, ∀ other, d.Mentions op other → other ∈ unseen → other ∈ waiting

theorem Followed.start (d : Definitions) (target : Operator) (waiting : List Operator) :
    d.Followed target Operator.all waiting where
  nodup := by decide
  target_unseen := target.mem_all
  closed op hop := absurd op.mem_all hop

theorem Followed.follow (h : d.Followed target unseen (op :: waiting)) (hne : op ≠ target) :
    d.Followed target (unseen.erase op) (d.mentions op ++ waiting) where
  nodup := h.nodup.erase op
  target_unseen := (List.mem_erase_of_ne hne.symm).2 h.target_unseen
  closed other hother next hnext hunseen := by
    obtain ⟨hop, hunseen⟩ := h.nodup.mem_erase_iff.1 hunseen
    rw [List.mem_append]
    by_cases heq : other = op
    · exact .inl (heq ▸ hnext)
    · have hseen : other ∉ unseen := fun hmem => hother ((List.mem_erase_of_ne heq).2 hmem)
      exact .inr ((List.mem_cons.1 (h.closed other hseen next hnext hunseen)).resolve_left hop)

theorem Followed.skip (h : d.Followed target unseen (op :: waiting)) (hop : op ∉ unseen) :
    d.Followed target unseen waiting where
  nodup := h.nodup
  target_unseen := h.target_unseen
  closed other hother next hnext hunseen :=
    (List.mem_cons.1 (h.closed other hother next hnext hunseen)).resolve_left fun heq => hop (heq ▸ hunseen)

/-- A way from an operator that was followed leads through one that is waiting. -/
theorem Followed.exists_waiting (h : d.Followed target unseen waiting) (hway : ReflTransGen d.Mentions op target)
    (hop : op ∉ unseen) : ∃ via ∈ waiting, ReflTransGen d.Mentions via target := by
  induction hway using ReflTransGen.head_induction_on with
  | refl => exact absurd h.target_unseen hop
  | @head op next hnext hway ih =>
    by_cases hunseen : next ∈ unseen
    · exact ⟨next, h.closed op hop next hnext hunseen, hway⟩
    · exact ih hunseen

/-- The search finds a way to the target if there is one from an operator that is waiting. -/
theorem reaches_iff (h : d.Followed target unseen waiting) :
    d.reaches target unseen waiting = true ↔ ∃ via ∈ waiting, ReflTransGen d.Mentions via target := by
  fun_induction reaches d target unseen waiting with
  | case1 => simp
  | case2 unseen rest => exact iff_of_true rfl ⟨target, List.mem_cons_self, .refl⟩
  | case3 unseen op rest hne hmem ih =>
    rw [ih (h.follow hne), List.exists_mem_cons_iff]
    constructor
    · rintro ⟨via, hvia, hway⟩
      rcases List.mem_append.1 hvia with hvia | hvia
      · exact .inl (.head hvia hway)
      · exact .inr ⟨via, hvia, hway⟩
    · rintro (hway | ⟨via, hvia, hway⟩)
      · obtain heq | ⟨via, hvia, hway⟩ := hway.cases_head
        · exact absurd heq hne
        · exact ⟨via, List.mem_append_left _ hvia, hway⟩
      · exact ⟨via, List.mem_append_right _ hvia, hway⟩
  | case4 unseen op rest hne hmem ih =>
    rw [ih (h.skip hmem), List.exists_mem_cons_iff]
    exact ⟨.inr, fun hway => hway.elim (fun hway => (h.skip hmem).exists_waiting hway hmem) id⟩

end search

/-- The body mentions the operator, or another one that leads to it. -/
def LeadsBack (d : Definitions) (op : Operator) (body : Body) : Prop :=
  op ∈ body.operators ∨ ∃ via ∈ body.operators, TransGen d.Mentions via op

theorem leadsBack_iff : d.LeadsBack op body ↔ ∃ via ∈ body.operators, ReflTransGen d.Mentions via op := by
  constructor
  · rintro (hop | ⟨via, hvia, hway⟩)
    · exact ⟨op, hop, .refl⟩
    · exact ⟨via, hvia, hway.to_reflTransGen⟩
  · rintro ⟨via, hvia, hway⟩
    rcases reflTransGen_iff_eq_or_transGen.1 hway with rfl | hway
    · exact .inl hvia
    · exact .inr ⟨via, hvia, hway⟩

theorem reaches_iff_leadsBack : d.reaches op Operator.all body.operators = true ↔ d.LeadsBack op body := by
  rw [reaches_iff (.start d op _), leadsBack_iff]

/-- A registry with a new definition of an operator, in place of the old one if there was one. -/
def Redefined (d : Definitions) (op : Operator) (body : Body) (d' : Definitions) : Prop :=
  ∀ other, d'.body? other = if other = op then some body else d.body? other

/-- A definition that leads back to its operator is refused, and any other is made. -/
theorem define_cases (d : Definitions) (op : Operator) (body : Body) :
    d.LeadsBack op body ∧ d.define op body = .error ⟨op⟩ ∨
      ¬ d.LeadsBack op body ∧ ∃ d', d.define op body = .ok d' ∧ d.Redefined op body d' := by
  rw [define, ← reaches_iff_leadsBack]
  split
  · next h => exact .inl ⟨h, rfl⟩
  · next h =>
    refine .inr ⟨h, _, rfl, fun other => ?_⟩
    by_cases heq : other = op
    · simp [body?, heq]
    · have hkept : (d.entries.filter (·.1 ≠ op)).find? (·.1 = other) = d.entries.find? (·.1 = other) := by
        rw [List.find?_filter]
        congr 1
        funext entry
        by_cases hentry : entry.1 = other <;> simp [hentry, heq]
      rw [if_neg heq, body?, List.find?_cons_of_neg (by simpa using Ne.symm heq), hkept]
      rfl

/-! A new definition makes no circle. -/

section redefined

variable {d' : Definitions} {other : Operator} (h : d.Redefined op body d')
include h

theorem Redefined.mentions_self : d'.Mentions op other ↔ other ∈ body.operators := by
  simp [mentions_iff, h op]

theorem Redefined.mentions_of_ne {first : Operator} (hne : first ≠ op) : d'.Mentions first other ↔ d.Mentions first other := by
  rw [mentions_iff, mentions_iff, h first, if_neg hne]

/-- A way to the operator itself does not use the new definition before its end. -/
theorem Redefined.way_to_self (hway : ReflTransGen d'.Mentions via op) : ReflTransGen d.Mentions via op := by
  induction hway using ReflTransGen.head_induction_on with
  | refl => exact .refl
  | @head first next hnext _ ih =>
    by_cases heq : first = op
    · exact heq ▸ .refl
    · exact .head ((h.mentions_of_ne heq).1 hnext) ih

/-- A way among the new definitions is an old one, or it passes the operator. -/
theorem Redefined.way_cases {first : Operator} (hway : TransGen d'.Mentions first other) :
    TransGen d.Mentions first other ∨ ReflTransGen d'.Mentions first op ∧ TransGen d'.Mentions op other := by
  induction hway with
  | @single next hnext =>
    by_cases heq : first = op
    · exact .inr ⟨heq ▸ .refl, .single (heq ▸ hnext)⟩
    · exact .inl (.single ((h.mentions_of_ne heq).1 hnext))
  | @tail last next hway hnext ih =>
    by_cases heq : last = op
    · exact .inr ⟨heq ▸ hway.to_reflTransGen, .single (heq ▸ hnext)⟩
    · rcases ih with hold | ⟨hto, hfrom⟩
      · exact .inl (.tail hold ((h.mentions_of_ne heq).1 hnext))
      · exact .inr ⟨hto, .tail hfrom hnext⟩

theorem Redefined.acyclic (hd : d.Acyclic) (hback : ¬ d.LeadsBack op body) : d'.Acyclic := by
  have hself : ¬ TransGen d'.Mentions op op := by
    intro hcircle
    obtain ⟨via, hvia, hway⟩ := TransGen.head'_iff.1 hcircle
    exact hback (leadsBack_iff.2 ⟨via, h.mentions_self.1 hvia, h.way_to_self hway⟩)
  intro first hcircle
  rcases h.way_cases hcircle with hold | ⟨hto, hfrom⟩
  · exact hd first hold
  · exact hself (hfrom.trans_left hto)

end redefined

/-! Sequences of calls. -/

/-- The definitions after a call to make one; where it is refused, they stay as they are. -/
def attempt (d : Definitions) (call : Operator × Body) : Definitions :=
  match d.define call.1 call.2 with
  | .ok d' => d'
  | .error _ => d

/-- The definitions after some calls. -/
def after (d : Definitions) (calls : List (Operator × Body)) : Definitions := calls.foldl attempt d

theorem Acyclic.attempt (hd : d.Acyclic) (call : Operator × Body) : (d.attempt call).Acyclic := by
  unfold Definitions.attempt
  rcases d.define_cases call.1 call.2 with ⟨-, hrun⟩ | ⟨hback, d', hrun, h⟩
  · rwa [hrun]
  · rw [hrun]
    exact h.acyclic hd hback

theorem Acyclic.after (hd : d.Acyclic) (calls : List (Operator × Body)) : (d.after calls).Acyclic := by
  induction calls generalizing d with
  | nil => exact hd
  | cons call calls ih => exact ih (hd.attempt call)

theorem acyclic_empty : Acyclic {} := fun op hcircle => by
  obtain ⟨via, hvia, -⟩ := TransGen.head'_iff.1 hcircle
  cases hvia

/-- The standard definitions are accepted one after the other. -/
theorem standard_eq_after : ({} : Definitions).after standard.entries.reverse = standard := by
  cbv

theorem acyclic_standard : standard.Acyclic := standard_eq_after ▸ acyclic_empty.after _

/-! Chains of definitions. -/

/-- At most so many definitions can be followed one into the other from the operator. Constants are not followed. -/
def Within (d : Definitions) : Nat → Operator → Prop
  | 0, op => d.body? op = none
  | depth + 1, op => ∀ body, d.body? op = some body → ∀ other ∈ body.operators, 0 < other.arity → d.Within depth other

theorem within_of_none (h : d.body? op = none) (depth : Nat) : d.Within depth op := by
  cases depth with
  | zero => exact h
  | succ depth => simp [Within, h]

theorem Within.mono {depth depth' : Nat} (h : d.Within depth op) (hle : depth ≤ depth') : d.Within depth' op := by
  induction depth generalizing depth' op with
  | zero => exact within_of_none h depth'
  | succ depth ih =>
    obtain ⟨depth', rfl⟩ := Nat.exists_eq_succ_of_ne_zero (Nat.ne_of_gt (Nat.lt_of_lt_of_le depth.succ_pos hle))
    exact fun body hbody other hother happlied => ih (h body hbody other hother happlied) (Nat.le_of_succ_le_succ hle)

/-- A chain that stays among some derived operators is no longer than their number: none of them comes twice. -/
theorem Acyclic.within_card (hd : d.Acyclic) (derived : Finset Operator) (op : Operator)
    (h : ∀ other, ReflTransGen d.Mentions op other → (d.body? other).isSome → other ∈ derived) :
    d.Within derived.card op := by
  induction hcard : derived.card generalizing derived op with
  | zero =>
    rw [Finset.card_eq_zero] at hcard
    subst hcard
    by_contra hsome
    exact absurd (h op .refl (Option.isSome_iff_ne_none.2 hsome)) (Finset.notMem_empty op)
  | succ count ih =>
    intro body hbody other hother _
    have hstep : d.Mentions op other := mentions_iff.2 ⟨body, hbody, hother⟩
    have hop : op ∈ derived := h op .refl (by rw [hbody]; rfl)
    refine ih (derived.erase op) other (fun last hway hsome => Finset.mem_erase.2 ⟨?_, ?_⟩) ?_
    · exact fun heq => hd op (.head' hstep (heq ▸ hway))
    · exact h last (.head hstep hway) hsome
    · rw [Finset.card_erase_of_mem hop, hcard, Nat.add_sub_cancel]

theorem Acyclic.within (hd : d.Acyclic) (op : Operator) : d.Within d.entries.length op := by
  have hderived : ∀ other, (d.body? other).isSome → other ∈ (d.entries.map (·.1)).toFinset := by
    intro other hsome
    rw [body?, Option.isSome_map, List.find?_isSome] at hsome
    obtain ⟨entry, hentry, heq⟩ := hsome
    exact List.mem_toFinset.2 (List.mem_map.2 ⟨entry, hentry, of_decide_eq_true heq⟩)
  have hcard : (d.entries.map (·.1)).toFinset.card ≤ d.entries.length := by
    simpa using (d.entries.map (·.1)).toFinset_card_le
  exact (hd.within_card _ op fun other _ => hderived other).mono hcard

end Countermodels.Definitions
