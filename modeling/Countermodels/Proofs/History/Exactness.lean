import Countermodels.Proofs.Check.Outcome
import Countermodels.Proofs.History.Footing

/-! Checks in the theory of histories tell whether there are admissible models and countermodels. It does not matter
how the histories after the main one are listed. -/

namespace Countermodels.History

variable {settings : Settings} {m : Nat} {letters : List Atom} {B C : Model} {a : Formula}

/-- Which of two listings of the same histories is used makes no difference to what holds. -/
theorem Model.holds_congr (hm : B.m = C.m) (hvaluation : B.valuation = C.valuation)
    (hmem : ∀ x, x ∈ B.histories ↔ x ∈ C.histories) (ha : Sentence letters a) (h : List State) (t : Nat) :
    B.Holds a h t ↔ C.Holds a h t := by
  induction ha generalizing h t with
  | atom _ => rw [Holds, Holds, hvaluation]
  | top => exact Iff.rfl
  | bot => exact Iff.rfl
  | neg _ ih => exact not_congr (ih h t)
  | box _ ih => exact forall_congr' fun x => imp_congr (hmem x) (ih x t)
  | diamond _ ih => exact exists_congr fun x => and_congr (hmem x) (ih x t)
  | future _ ih =>
    rw [Holds, Holds, hm]
    exact forall_congr' fun u => imp_congr_right fun _ => imp_congr_right fun _ => ih h u
  | someFuture _ ih =>
    rw [Holds, Holds, hm]
    exact exists_congr fun u => and_congr_right fun _ => and_congr_right fun _ => ih h u
  | past _ ih => exact forall_congr' fun u => imp_congr_right fun _ => ih h u
  | somePast _ ih => exact exists_congr fun u => and_congr_right fun _ => ih h u
  | and _ _ iha ihb => exact and_congr (iha h t) (ihb h t)
  | or _ _ iha ihb => exact or_congr (iha h t) (ihb h t)

namespace Model.Admissible

theorem timed (hB : B.Admissible settings m letters) (hm : History.Timed settings m) : B.Timed where
  pos := hB.m_eq ▸ hm.pos
  word := by
    have hle := hm.le
    rw [Settings.maxM] at hle
    rw [hB.m_eq]
    omega
  length := hB.m_eq ▸ hB.bundle.length

/-- The evaluator gives an answer at the point of evaluation, which says what holds there. -/
theorem exists_isTrue (hB : B.Admissible settings m letters) (hm : History.Timed settings m) {main : List State}
    (hmain : B.histories[0]? = some main) (ha : Sentence letters a) :
    ∃ b, (Countermodel.history B).isTrue a = .ok b ∧ (b = true ↔ B.Holds a main (m - 1)) := by
  have hpos := hm.pos
  have hnow : B.now = .ok (m - 1) := by
    rw [Model.now, hB.m_eq, if_neg (by omega)]
  have htime : m - 1 < 2 * B.m - 1 := by
    rw [hB.m_eq]
    omega
  obtain ⟨b, hrun, hb⟩ := Model.isTrue_gives (hB.timed hm) ha hmain htime
  refine ⟨b, ?_, hb⟩
  rw [Countermodel.isTrue, hnow]
  exact hrun

/-- Models with the same main history and the same histories refute the same arguments. -/
theorem refutes_congr (hB : B.Admissible settings m letters) (hC : C.Admissible settings m letters) (hm : History.Timed settings m)
    (hvaluation : B.valuation = C.valuation) (hmain : B.histories[0]? = C.histories[0]?)
    (hmem : ∀ x, x ∈ B.histories ↔ x ∈ C.histories) {p : Problem} (hp : p.Over .bimodal letters) :
    (Countermodel.history B).Refutes p ↔ (Countermodel.history C).Refutes p := by
  obtain ⟨main, hfirst⟩ : ∃ main, B.histories[0]? = some main :=
    ⟨_, List.getElem?_eq_getElem (List.length_pos_iff.2 hB.nonempty)⟩
  have hsame : ∀ f ∈ p.premises ++ p.conclusions,
      (Countermodel.history B).isTrue f = (Countermodel.history C).isTrue f := by
    intro f hf
    have ha := Sentence.of_over (hp f hf)
    obtain ⟨b, hb, hbiff⟩ := hB.exists_isTrue hm hfirst ha
    obtain ⟨c, hc, hciff⟩ := hC.exists_isTrue hm (hmain ▸ hfirst) ha
    have hholds := Model.holds_congr (hB.m_eq.trans hC.m_eq.symm) hvaluation hmem ha main (m - 1)
    rw [hb, hc, Bool.eq_iff_iff.2 (hbiff.trans (hholds.trans hciff.symm))]
  apply and_congr
  · apply forall₂_congr
    intro f hf
    rw [hsame f (List.mem_append_left _ hf)]
  · apply forall_congr'
    intro _
    apply exists_congr
    intro f
    apply and_congr_right
    intro hf
    rw [hsame f (List.mem_append_right _ hf)]

/-- Every admissible model can be listed in order, and keeps its shape and the arguments that it refutes. -/
theorem exists_inOrder (hB : B.Admissible settings m letters) (hm : History.Timed settings m) :
    ∃ C : Model, C.Admissible settings m letters ∧ C.InOrder ∧ C.shape = B.shape ∧
      ∀ p : Problem, p.Over .bimodal letters → ((Countermodel.history C).Refutes p ↔ (Countermodel.history B).Refutes p) := by
  obtain ⟨main, hs, hhistories⟩ := List.exists_cons_of_ne_nil hB.nonempty
  have hbundle := hB.bundle
  rw [hhistories] at hbundle
  obtain ⟨ks, hperm, hincreasing⟩ := hbundle.exists_increasing
  have hlisted := hbundle.perm (hperm.cons main)
  have hC : Model.Admissible settings m letters { B with histories := main :: ks } :=
    ⟨hB.space_eq, hB.m_eq, hlisted, List.cons_ne_nil _ _, hB.letters_eq, hB.allows, hB.disjoint⟩
  refine ⟨{ B with histories := main :: ks }, hC, hincreasing, ?_, fun p hp => hC.refutes_congr hB hm rfl ?_ ?_ hp⟩
  · have hothers : ks.foldr insert [] = hs.foldr insert [] := foldr_insert_eq_iff.2 fun x => hperm.mem_iff.symm
    rw [Model.shape, Model.shape, Model.others, Model.others, hhistories]
    exact congrArg (fun others => (main, others, B.valuation)) hothers
  · rw [hhistories]
    rfl
  · intro x
    rw [hhistories]
    exact (hperm.cons main).symm.mem_iff

end Model.Admissible

section checks

variable (hm : Timed settings m)
include hm

/-- What is described when the encoder is built is admissible. -/
theorem described_admissible {σ : Nat → Bool} (hσ : (footing hm letters).start.satisfiedBy σ) :
    ((foundation letters hm .never).model σ).Admissible settings m letters :=
  (opening_describes letters hm).sound σ (Gates.satisfiedBy_new.1 hσ).1

/-- Of every admissible model, some listing is described when the encoder is built. -/
theorem exists_start_listing (hB : B.Admissible settings m letters) :
    ∃ σ C, (footing hm letters).start.satisfiedBy σ ∧ (footing hm letters).model σ = .history C ∧ C.shape = B.shape ∧
      ∀ p : Problem, p.Over .bimodal letters → ((Countermodel.history C).Refutes p ↔ (Countermodel.history B).Refutes p) := by
  obtain ⟨C, hC, horder, hshape, hrefutes⟩ := hB.exists_inOrder hm
  have hopen := opening_describes letters hm
  obtain ⟨σ, hσ, hread⟩ := hopen.complete C hC horder
  have hagree := Agree.update (openingCnf settings m letters).numVars σ true
  refine ⟨Function.update σ (openingCnf settings m letters).numVars true, C, Gates.satisfiedBy_new.2 ⟨?_, ?_⟩, ?_, hshape, hrefutes⟩
  · exact Basis.sat_start.1 ((Basis.sat_start.2 hσ).congr hopen.fits hagree)
  · exact Function.update_self ..
  · have hsame := Frame.reading_congr hagree hopen.known hopen.tabled
    exact congrArg Countermodel.history (hsame.symm.trans hread)

/-- The clauses describe a model if there is an admissible one. -/
theorem exists_start_iff : (∃ σ, (footing hm letters).start.satisfiedBy σ) ↔
    ∃ B : Model, B.Admissible settings m letters := by
  constructor
  · rintro ⟨σ, hσ⟩
    exact ⟨_, described_admissible hm hσ⟩
  · rintro ⟨B, hB⟩
    obtain ⟨σ, -, hσ, -⟩ := exists_start_listing hm hB
    exact ⟨σ, hσ⟩

/-- The clauses describe a countermodel if there is an admissible one. -/
theorem exists_start_refutes_iff {p : Problem} (hp : p.Over .bimodal letters) :
    (∃ σ, (footing hm letters).start.satisfiedBy σ ∧ ((footing hm letters).model σ).Refutes p) ↔
      ∃ B : Model, B.Admissible settings m letters ∧ (Countermodel.history B).Refutes p := by
  constructor
  · rintro ⟨σ, hσ, hrefutes⟩
    exact ⟨_, described_admissible hm hσ, hrefutes⟩
  · rintro ⟨B, hB, hrefutes⟩
    obtain ⟨σ, C, hσ, hmodel, -, hiff⟩ := exists_start_listing hm hB
    exact ⟨σ, hσ, hmodel ▸ (hiff p hp).2 hrefutes⟩

end checks

/-- A check finds a countermodel just if there is an admissible one: a main history and a set of others that together are
closed under shifts, with letters as the settings ask for. It finds that there is none just if there are admissible
models but no countermodel among them, and that there is no frame just if there is no admissible model. Otherwise the
deadline has come, or one of its searches was too much for the machine. -/
theorem check_tells_admissible_histories (p : Problem)
    (hp : ∀ f ∈ p.premises ++ p.conclusions, ∀ op ∈ f.operators, op ∈ Theory.bimodal.primitives)
    (hn : p.settings.n ≠ 0) (m : Nat) (hm : Timed p.settings m) (clock : Nat → Nat) (interrupt : Bool) :
    Check.Exact p (∃ B : Model, B.Admissible p.settings m p.letters)
        (∃ B : Model, B.Admissible p.settings m p.letters ∧ (Countermodel.history B).Refutes p)
        (Check.prepared .bimodal p clock interrupt) ∨
      ∃ f, Check.prepared .bimodal p clock interrupt = .error f ∧
        ((Deadline.start clock p.settings.maxTime interrupt).Late f ∨
          Check.Overstrained .bimodal p (.start clock p.settings.maxTime interrupt) f) := by
  have hover : p.Over .bimodal p.letters := Problem.over_letters hp
  exact ((footing hm p.letters).prepared_settles hover hn clock interrupt).exact (exists_start_iff hm)
    (exists_start_refutes_iff hm hover)

/-- One history, which is at the null state at its only time; the letter is true at the atomic state. -/
def resting : Model where
  space := ⟨1⟩
  m := 1
  histories := [[⟨0⟩]]
  valuation := [(⟨'B', rfl⟩, .singleton ⟨1⟩)]

/-- The argument from a letter's being true at all later times to its being true, with a number of countermodels to look
for. -/
def foretold (iterate : Nat) : Problem :=
  ⟨[.unary .future (.atom ⟨'B', rfl⟩)], [.atom ⟨'B', rfl⟩],
    { n := 1, m := some 1, contingent := true, nonNull := true, iterate }⟩

theorem foretold_primitive (iterate : Nat) : ∀ f ∈ (foretold iterate).premises ++ (foretold iterate).conclusions,
    ∀ op ∈ f.operators, op ∈ Theory.bimodal.primitives := by
  have hprimitive : ∀ f ∈ (foretold 0).premises ++ (foretold 0).conclusions, ∀ op ∈ f.operators,
      op ∈ Theory.bimodal.primitives := by decide +kernel
  exact hprimitive

theorem foretold_timed (iterate : Nat) : Timed (foretold iterate).settings 1 := ⟨rfl, by decide, by decide⟩

theorem letters_foretold (iterate : Nat) : (foretold iterate).letters = [⟨'B', rfl⟩] := by
  have hletters : (foretold 0).letters = [⟨'B', rfl⟩] := by decide +kernel
  exact hletters

theorem size_foretold (iterate : Nat) : Check.size? .bimodal (foretold iterate)
    (.start (fun _ => 0) (foretold iterate).settings.maxTime false) = some (31, 59) := by
  cbv

theorem resting_admissible (iterate : Nat) :
    resting.Admissible (foretold iterate).settings 1 (foretold iterate).letters where
  space_eq := rfl
  m_eq := rfl
  bundle := by
    refine ⟨by decide, (by decide : 1 ≤ Frame.bound 1 1), by decide, by decide, ?_⟩
    refine List.forall_mem_singleton.2 fun forward => ⟨_, List.mem_singleton_self _, ?_⟩
    -- no time has another before or after it
    cases forward with
    | true => exact fun t ht => absurd (Nat.lt_of_succ_lt_succ ht) (Nat.not_lt_zero t)
    | false => exact fun t ht => absurd (Nat.lt_of_succ_lt_succ ht) (Nat.not_lt_zero t)
  nonempty := List.cons_ne_nil _ _
  letters_eq := by
    rw [letters_foretold]
    decide
  allows := by
    refine List.forall_mem_singleton.2 ⟨?_, fun _ => ⟨⟨⟨1⟩, by decide, by decide⟩, ⟨0⟩, by decide, by decide⟩, ?_, ?_⟩
    · intro s hs
      obtain rfl := StateSet.mem_singleton.1 hs
      decide
    · intro h
      cases h
    · intro _
      decide
  disjoint h := by cases h

theorem resting_refutes (iterate : Nat) : (Countermodel.history resting).Refutes (foretold iterate) :=
  ⟨List.forall_mem_singleton.2 rfl, fun _ => ⟨_, List.mem_singleton_self _, rfl⟩⟩

/-- Checks of this argument return. -/
theorem foretold_not_fails {iterate : Nat} (hiterate : iterate ≤ 2 ^ 31) (f : Failure) :
    ¬ ((Deadline.start (fun _ => 0) (foretold iterate).settings.maxTime false).Late f ∨
      Check.Overstrained .bimodal (foretold iterate)
        (.start (fun _ => 0) (foretold iterate).settings.maxTime false) f) :=
  (footing (foretold_timed iterate) _).not_fails (Problem.over_letters (foretold_primitive iterate)) (fun _ => rfl)
    (size_foretold iterate) (by decide) (by simp only [foretold]; omega) f

/-- What will always be true need not be true, and this is found. -/
theorem check_tells_admissible_histories_resting :
    ∃ r, Check.prepared .bimodal (foretold 1) (fun _ => 0) false = .ok r ∧ r.verdict = .countermodel := by
  have hexact := (check_tells_admissible_histories (foretold 1) (foretold_primitive 1) (by decide) 1 (foretold_timed 1)
    (fun _ => 0) false).resolve_right (by
      rintro ⟨f, -, hfails⟩
      exact foretold_not_fails (by decide) f hfails)
  exact hexact.countermodel_iff.2 ⟨resting, resting_admissible 1, resting_refutes 1⟩

end Countermodels.History
