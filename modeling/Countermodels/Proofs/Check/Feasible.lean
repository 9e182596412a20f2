import Countermodels.Proofs.Check.Support
import Countermodels.Proofs.History.Windows

/-! Frames of histories are feasible. Whatever the main history is to be, and wherever the letters are to be true, the
slots of a frame have room for it, if nothing is demanded of the letters. So a check in this theory never finds that
there is no frame. -/

namespace Countermodels

/-- Nothing is demanded of the letters. -/
structure Settings.Lax (settings : Settings) : Prop where
  contingent : settings.contingent = false
  disjoint : settings.disjoint = false
  nonEmpty : settings.nonEmpty = false
  nonNull : settings.nonNull = false

namespace History

variable {settings : Settings} {m : Nat} {letters : List Atom} {h : Nat → State} {V : Atom → State → Bool}
  {hs : List (List State)} {f : Frame} {v : Valuation (Array Lit)} {σ : Nat → Bool} {g : Cnf}

/-- Each letter with the states of a space at which it is said to be true. -/
def placing (space : StateSpace) (letters : List Atom) (V : Atom → State → Bool) : Valuation StateSet :=
  (Atom.sorted letters).map fun a => (a, (StateSet.ofSpace space).filter (V a))

theorem letters_placing (space : StateSpace) : (placing space letters V).letters = Atom.sorted letters := by
  rw [Valuation.letters, placing, List.map_map]
  exact List.map_id _

theorem meaning?_placing (space : StateSpace) {a : Atom} (ha : a ∈ letters) :
    (placing space letters V).meaning? a = some ((StateSet.ofSpace space).filter (V a)) := by
  apply Valuation.meaning?_of_mem
  · rw [letters_placing]
    exact (Atom.alphabetical_sorted letters).nodup
  · exact List.mem_map.2 ⟨a, Atom.mem_sorted.2 ha, rfl⟩

/-- Any listing of histories and any letters make an admissible model, if nothing is demanded of the letters. -/
theorem admissible_of_listing (letters : List Atom) (V : Atom → State → Bool) (hlax : settings.Lax)
    (hl : Frame.Listing ⟨settings.n⟩ m hs) :
    Model.Admissible settings m letters ⟨⟨settings.n⟩, m, hs, placing ⟨settings.n⟩ letters V⟩ where
  space_eq := rfl
  m_eq := rfl
  bundle := hl.toBundle
  nonempty := hl.nonempty
  letters_eq := letters_placing _
  allows p hp := by
    obtain ⟨a, -, rfl⟩ := List.mem_map.1 hp
    refine ⟨fun s hs => ?_, fun hon => ?_, fun hon => ?_, fun hon => ?_⟩
    · exact StateSet.mem_ofSpace.1 (StateSet.mem_filter.1 hs).1
    · rw [hlax.contingent] at hon
      cases hon
    · rw [hlax.nonEmpty] at hon
      cases hon
    · rw [hlax.nonNull] at hon
      cases hon
  disjoint hon := by
    rw [hlax.disjoint] at hon
    cases hon

/-- The first slot of a frame is in use and goes through the states of a history, and the letters are true at the states
where they are said to be. -/
structure Carries (space : StateSpace) (m : Nat) (letters : List Atom) (h : Nat → State) (V : Atom → State → Bool)
    (f : Frame) (v : Valuation (Array Lit)) (σ : Nat → Bool) : Prop where
  active : (f.isActive 0).holds σ = true
  main : ∀ t < 2 * m - 1, ∀ s ∈ space.states, (f.isAt 0 t s).holds σ = decide (h t = s)
  letters : ∀ a ∈ letters, ∃ lits, v.meaning? a = some lits ∧
    ∀ s ∈ space.states, (lits.getD s.bits default).holds σ = V a s

/-- A frame with literals for letters has room for any main history. -/
theorem Describing.exists_carries (hd : Describing settings m letters f v g) (hlax : settings.Lax) (hm : 1 ≤ m)
    (hstates : ∀ t < 2 * m - 1, h t ∈ (StateSpace.mk settings.n).states) :
    ∃ σ, g.satisfiedBy σ ∧ Carries ⟨settings.n⟩ m letters h V f v σ := by
  obtain ⟨ks, hl⟩ := exists_listing_of_main hm hstates
  obtain ⟨σ, hσ, hread⟩ := hd.complete _ (admissible_of_listing letters V hlax hl) hl.increasing
  have hset := hd.settled σ hσ
  have hcanonical := (hd.arranged σ hσ).toCanonical
  have htimes : f.numTimes = 2 * m - 1 := by rw [Frame.numTimes, hd.m_eq]
  have hslot : f.slot σ 0 = (List.range (2 * m - 1)).map h := by
    have hshown : f.shown σ = (List.range (2 * m - 1)).map h :: ks := congrArg Model.histories hread
    rw [hcanonical.shown_eq, List.cons.injEq] at hshown
    exact hshown.1
  have hvaluation : (v.map fun p => (p.1, f.select σ p.2)) = placing ⟨settings.n⟩ letters V :=
    congrArg Model.valuation hread
  refine ⟨σ, hσ, hcanonical.main.2, fun t ht s hs => ?_, fun a ha => ?_⟩
  · have hstate : f.stateOf σ 0 t = h t := by
      have hget : (f.slot σ 0)[t]? = some (h t) := by simp [hslot, ht]
      rw [Frame.getElem?_slot (htimes ▸ ht)] at hget
      exact Option.some.inj hget
    rw [Bool.eq_iff_iff, hset.holds_isAt hd.known hcanonical.main.1 (htimes ▸ ht) (hd.space_eq ▸ hs), hstate,
      decide_eq_true_iff]
  · have hmem : a ∈ v.letters := by
      rw [hd.letters_eq]
      exact Atom.mem_sorted.2 ha
    obtain ⟨lits, hlits⟩ := Valuation.mem_letters_iff.1 hmem
    refine ⟨lits, hlits, fun s hs => ?_⟩
    have hselect : f.select σ lits = (StateSet.ofSpace ⟨settings.n⟩).filter (V a) := by
      have hplaced := meaning?_placing (V := V) ⟨settings.n⟩ ha
      rw [← hvaluation] at hplaced
      have hpair := Valuation.meaning?_of_mem (v := v.map fun p => (p.1, f.select σ p.2)) (a := a)
        (x := f.select σ lits) ?_ (List.mem_map.2 ⟨(a, lits), Valuation.mem_of_meaning? hlits, rfl⟩)
      · exact Option.some.inj (hpair.symm.trans hplaced)
      · rw [hvaluation, letters_placing]
        exact (Atom.alphabetical_sorted letters).nodup
    have hiff : s ∈ f.select σ lits ↔ s ∈ (StateSet.ofSpace ⟨settings.n⟩).filter (V a) := by rw [hselect]
    rw [Frame.mem_select, StateSet.mem_filter, StateSet.mem_ofSpace, hd.space_eq, and_iff_right hs, and_iff_right hs] at hiff
    exact Bool.eq_iff_iff.2 hiff

/-- A new frame with literals for letters has room for any main history, unless the deadline comes before it is
written. -/
theorem exists_carries_new (hlax : settings.Lax) (hm : 1 ≤ m) (letters : List Atom) (V : Atom → State → Bool)
    (hstates : ∀ t < 2 * m - 1, h t ∈ (StateSpace.mk settings.n).states) (D : Deadline) :
    (∃ f d, Frame.new ⟨settings.n⟩ m { deadline := D } = .ok f d ∧
      ∃ σ, (f.valuation settings letters d.cnf).2.satisfiedBy σ ∧
        Carries ⟨settings.n⟩ m letters h V f (f.valuation settings letters d.cnf).1 σ) ∨
      ∃ e d, Frame.new ⟨settings.n⟩ m { deadline := D } = .error e d ∧ D.Late e := by
  rcases (Frame.keeps_new ⟨settings.n⟩ m D { deadline := D } (.refl D)).outcome with ⟨f, d, hrun, -, hwritten⟩ | hlate
  · have hopening : opening settings m letters {} = (((Frame.write ⟨settings.n⟩ m {}).1,
        ((Frame.write ⟨settings.n⟩ m {}).1.valuation settings letters (Frame.write ⟨settings.n⟩ m {}).2).1),
        ((Frame.write ⟨settings.n⟩ m {}).1.valuation settings letters (Frame.write ⟨settings.n⟩ m {}).2).2) := rfl
    have hd := opening_describing settings hm letters
    rw [hopening, ← hwritten] at hd
    exact .inl ⟨f, d, hrun, hd.exists_carries hlax hm hstates⟩
  · exact .inr hlate

end History

/-! Checks. -/

theorem Deadline.Late.ne_infeasible {d : Deadline} {f : Failure} (h : d.Late f) (mistake : FrameMistake) :
    f ≠ .refused (.infeasibleFrame mistake) := by
  obtain ⟨rfl, -⟩ := h
  intro heq
  cases heq

theorem Failure.IsFault.ne_infeasible {F : Fault → Prop} {f : Failure} (h : f.IsFault F) (mistake : FrameMistake) :
    f ≠ .refused (.infeasibleFrame mistake) := by
  obtain ⟨x, rfl, -⟩ := h
  intro heq
  cases heq

namespace Check

variable {p : Problem} {m : Nat}

/-- A check of prepared formulas finds a frame. -/
theorem prepared_feasible (hp : p.Over .bimodal p.letters) (hlax : p.settings.Lax) (hn : p.settings.n ≠ 0)
    (hlisted : p.settings.n < 32) (hm : History.Timed p.settings m) (clock : Nat → Nat) (interrupt : Bool) :
    Yields (fun f => ∀ mistake, f ≠ .refused (.infeasibleFrame mistake)) (prepared .bimodal p clock interrupt)
      fun _ => True := by
  have hnull : State.null ∈ (StateSpace.mk p.settings.n).states := StateSpace.mem_states.2 ⟨hlisted, StateSpace.size_pos _⟩
  obtain ⟨ks, hl⟩ := History.exists_listing_of_main hm.pos fun _ _ => hnull
  obtain ⟨σ, hσ⟩ := (History.exists_start_iff hm).2
    ⟨_, History.admissible_of_listing p.letters (fun _ _ => false) hlax hl⟩
  have hsettles := (History.footing hm p.letters).prepared_settles hp hn clock interrupt
  cases hresult : prepared .bimodal p clock interrupt with
  | ok r => trivial
  | error f =>
    rw [hresult] at hsettles
    rcases hsettles with ⟨-, hnone⟩ | hlate | ⟨_, _, _, -, -, hfault⟩
    · exact absurd hσ (hnone σ)
    · exact hlate.ne_infeasible
    · exact hfault.ne_infeasible

end Check

/-- Preparing formulas does not ask for a frame either. -/
theorem check_feasible {p : Problem} {m : Nat} (hlax : p.settings.Lax) (hn : p.settings.n ≠ 0)
    (hlisted : p.settings.n < 32) (hm : History.Timed p.settings m) (clock : Nat → Nat) (interrupt : Bool) :
    Yields (fun f => ∀ mistake, f ≠ .refused (.infeasibleFrame mistake)) (check .bimodal p clock interrupt)
      fun _ => True := by
  have hprepare : ∀ a : Formula, Yields (fun f => ∀ mistake, f ≠ .refused (.infeasibleFrame mistake))
      (Theory.bimodal.prepare a) fun g => ∀ op ∈ g.operators, op ∈ Theory.bimodal.primitives := by
    intro a
    obtain ⟨e, -, ⟨hprimitive, hrun⟩ | ⟨op, -, -, hrun⟩⟩ := Theory.bimodal.prepare_cases a
    · rw [hrun]
      exact hprimitive
    · rw [hrun]
      intro mistake heq
      cases heq
  refine (Yields.mapM fun a _ => hprepare a).bind fun premises hpremises => ?_
  refine (Yields.mapM fun a _ => hprepare a).bind fun conclusions hconclusions => ?_
  have hover := Problem.over_letters (p := { p with premises, conclusions })
    (List.forall_mem_append.2 ⟨hpremises, hconclusions⟩)
  exact Check.prepared_feasible hover hlax hn hlisted hm clock interrupt

/-- If nothing is demanded of the letters, the slots of a frame have room for any main history and for letters that are
true at any states, and no check finds that there is no frame. -/
theorem slots_have_room_for_any_history (settings : Settings) (hlax : settings.Lax) :
    (∀ (m : Nat) (letters : List Atom) (h : Nat → State) (V : Atom → State → Bool) (D : Deadline), 1 ≤ m →
      (∀ t < 2 * m - 1, h t ∈ (StateSpace.mk settings.n).states) →
        (∃ f d, History.Frame.new ⟨settings.n⟩ m { deadline := D } = .ok f d ∧
          ∃ σ, (f.valuation settings letters d.cnf).2.satisfiedBy σ ∧
            History.Carries ⟨settings.n⟩ m letters h V f (f.valuation settings letters d.cnf).1 σ) ∨
          ∃ e d, History.Frame.new ⟨settings.n⟩ m { deadline := D } = .error e d ∧ D.Late e) ∧
    ∀ (p : Problem) (m : Nat), p.settings = settings → 1 ≤ settings.n → settings.n ≤ Settings.maxN → settings.m = some m →
      1 ≤ m → m ≤ Settings.maxM → ∀ (clock : Nat → Nat) (interrupt : Bool) (mistake : FrameMistake),
        check .bimodal p clock interrupt ≠ .error (.refused (.infeasibleFrame mistake)) := by
  refine ⟨fun m letters h V D hm hstates => History.exists_carries_new hlax hm letters V hstates D, ?_⟩
  rintro p m rfl hn hle hsome hm hmle clock interrupt mistake heq
  have hlisted : p.settings.n < 32 := Nat.lt_of_le_of_lt hle (by decide)
  have hfeasible := check_feasible hlax (Nat.ne_of_gt hn) hlisted ⟨hsome, hm, hmle⟩ clock interrupt
  rw [heq] at hfeasible
  exact hfeasible mistake rfl

/-- A history that leaves the null state and comes back, with a letter that is true where it has been. -/
theorem slots_have_room_for_any_history_returning :
    (∃ f d, History.Frame.new ⟨1⟩ 2 { deadline := .never } = .ok f d ∧
      ∃ σ, (f.valuation { n := 1, m := some 2 } [⟨'C', rfl⟩] d.cnf).2.satisfiedBy σ ∧
        (∀ t < 3, (f.isAt 0 t ⟨1⟩).holds σ = decide (t = 1)) ∧
        ∃ lits, (f.valuation { n := 1, m := some 2 } [⟨'C', rfl⟩] d.cnf).1.meaning? ⟨'C', rfl⟩ = some lits ∧
          (lits.getD 1 default).holds σ = true) ∧
    ∀ mistake, check .bimodal ⟨[.atom ⟨'C', rfl⟩], [.bot], { n := 1, m := some 2 }⟩ id false ≠
      .error (.refused (.infeasibleFrame mistake)) := by
  have hlax : Settings.Lax { n := 1, m := some 2 } := ⟨rfl, rfl, rfl, rfl⟩
  have hopen : Deadline.never.Open := fun _ => rfl
  obtain ⟨hroom, hcheck⟩ := slots_have_room_for_any_history { n := 1, m := some 2 } hlax
  refine ⟨?_, fun mistake => hcheck _ 2 rfl (by decide) (by decide) rfl (by decide) (by decide) id false mistake⟩
  rcases hroom 2 [⟨'C', rfl⟩] (fun t => if t = 1 then ⟨1⟩ else .null) (fun _ s => decide (s = ⟨1⟩)) .never (by decide)
    (by decide) with ⟨f, d, hrun, σ, hσ, hcarries⟩ | ⟨e, d, -, hlate⟩
  · obtain ⟨lits, hlits, hvalues⟩ := hcarries.letters _ (List.mem_singleton_self _)
    refine ⟨f, d, hrun, σ, hσ, fun t ht => ?_, lits, hlits, hvalues ⟨1⟩ (by decide)⟩
    rw [hcarries.main t ht ⟨1⟩ (by decide)]
    interval_cases t <;> rfl
  · exact absurd hlate (hopen.not_late e)

end Countermodels
