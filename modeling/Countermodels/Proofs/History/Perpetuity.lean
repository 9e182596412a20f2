import Countermodels.Proofs.History.Bundle

/-! Perpetuity. Among histories that are closed under shifts by one step, the same states are passed through at all times:
a shift agrees with a history of the model only where both have a state, so a state is carried along one step at a time.
A sentence without tense operators therefore says something about states alone: boxes and diamonds in it range over
histories at one time, and it does not matter at which. What is necessary is then true at all times, and what is true at
some time is possible. -/

namespace Countermodels.History

variable {m : Model} {f : Formula} {h k : List State} {t u : Nat} {s : State}

/-- The operators that lead to other times. -/
def tenses : List Operator := [.unary .future, .unary .someFuture, .unary .past, .unary .somePast]

namespace Model

/-- Moved by one step in either direction, every history agrees with one of the model. -/
def ShiftClosed (m : Model) : Prop := ∀ h ∈ m.histories, ∀ forward, ∃ h' ∈ m.histories, Shifted h h' forward

/-- Some history is at the state at the time. -/
def Passes (m : Model) (t : Nat) (s : State) : Prop := ∃ h ∈ m.histories, h[t]? = some s

theorem passes_succ_iff (hm : m.Timed) (hclosed : m.ShiftClosed) (ht : t + 1 < 2 * m.m - 1) :
    m.Passes (t + 1) s ↔ m.Passes t s := by
  constructor
  · rintro ⟨h, hh, hs⟩
    obtain ⟨h', hh', hshift⟩ := hclosed h hh true
    exact ⟨h', hh', (hshift t (hm.length h hh ▸ ht)).trans hs⟩
  · rintro ⟨h, hh, hs⟩
    obtain ⟨h', hh', hshift⟩ := hclosed h hh false
    exact ⟨h', hh', (hshift t (hm.length h hh ▸ ht)).trans hs⟩

theorem passes_iff_start (hm : m.Timed) (hclosed : m.ShiftClosed) (ht : t < 2 * m.m - 1) :
    m.Passes t s ↔ m.Passes 0 s := by
  induction t with
  | zero => rfl
  | succ t ih => rw [passes_succ_iff hm hclosed ht, ih (by omega)]

/-- A history has a state at every time, and some history is at that state at any other time. -/
theorem exists_same_state (hm : m.Timed) (hclosed : m.ShiftClosed) (hh : h ∈ m.histories) (ht : t < 2 * m.m - 1)
    (hu : u < 2 * m.m - 1) : ∃ k ∈ m.histories, ∃ s, h[t]? = some s ∧ k[u]? = some s := by
  have hlen := hm.length h hh
  have hstate : h[t]? = some (h.get ⟨t, hlen ▸ ht⟩) := List.getElem?_eq_getElem _
  have hpasses : m.Passes u (h.get ⟨t, hlen ▸ ht⟩) := by
    rw [passes_iff_start hm hclosed hu, ← passes_iff_start hm hclosed ht]
    exact ⟨h, hh, hstate⟩
  obtain ⟨k, hk, hks⟩ := hpasses
  exact ⟨k, hk, _, hstate, hks⟩

/-- The truth of a formula depends only on the state. -/
def Determined (m : Model) (f : Formula) : Prop := ∀ ⦃h k : List State⦄ ⦃t u : Nat⦄ ⦃s : State⦄,
  t < 2 * m.m - 1 → u < 2 * m.m - 1 → h[t]? = some s → k[u]? = some s → (m.Holds f h t ↔ m.Holds f k u)

section shifts

variable (hm : m.Timed) (hclosed : m.ShiftClosed)
include hm hclosed

/-- What holds at one time on all histories holds at every time on all of them. -/
theorem Determined.holds_of_all (hf : m.Determined f) (ht : t < 2 * m.m - 1) (hu : u < 2 * m.m - 1)
    (hall : ∀ k ∈ m.histories, m.Holds f k t) (hh : h ∈ m.histories) : m.Holds f h u := by
  obtain ⟨k, hk, s, hhs, hks⟩ := exists_same_state hm hclosed hh hu ht
  exact (hf hu ht hhs hks).2 (hall k hk)

/-- What holds at some time on some history holds at every time on some history. -/
theorem Determined.exists_holds (hf : m.Determined f) (ht : t < 2 * m.m - 1) (hu : u < 2 * m.m - 1)
    (hh : h ∈ m.histories) (hholds : m.Holds f h u) : ∃ k ∈ m.histories, m.Holds f k t := by
  obtain ⟨k, hk, s, hhs, hks⟩ := exists_same_state hm hclosed hh hu ht
  exact ⟨k, hk, (hf hu ht hhs hks).1 hholds⟩

/-- Sentences without tense operators are determined by the state. -/
theorem determined_of_over {letters : List Atom}
    (hf : f.Over (Theory.bimodal.primitives.filter (· ∉ tenses)) letters) : m.Determined f := by
  induction f with
  | atom a =>
    intro h k t u s _ _ hhs hks
    simp [Holds, hhs, hks]
  | top =>
    intro h k t u s _ _ _ _
    exact Iff.rfl
  | bot =>
    intro h k t u s _ _ _ _
    exact Iff.rfl
  | unary op a ih =>
    obtain ⟨hop, ha⟩ := Formula.over_unary.1 hf
    have ih := ih ha
    intro h k t u s ht hu hhs hks
    cases op with
    | neg => exact not_congr (ih ht hu hhs hks)
    | box =>
      -- the box asks for all histories at one time, and these are at the same states at every time
      constructor
      · exact fun hall k hk => ih.holds_of_all hm hclosed ht hu hall hk
      · exact fun hall k hk => ih.holds_of_all hm hclosed hu ht hall hk
    | diamond =>
      constructor
      · rintro ⟨k, hk, hholds⟩
        exact ih.exists_holds hm hclosed hu ht hk hholds
      · rintro ⟨k, hk, hholds⟩
        exact ih.exists_holds hm hclosed ht hu hk hholds
    | _ => exact absurd hop (by decide)
  | binary op a b iha ihb =>
    obtain ⟨hop, ha, hb⟩ := Formula.over_binary.1 hf
    have iha := iha ha
    have ihb := ihb hb
    intro h k t u s ht hu hhs hks
    cases op with
    | and => exact and_congr (iha ht hu hhs hks) (ihb ht hu hhs hks)
    | or => exact or_congr (iha ht hu hhs hks) (ihb ht hu hhs hks)
    | _ => exact absurd hop (by decide)

end shifts

theorem stateAt_eq_ok {i : Nat} : m.stateAt i t = .ok s ↔ ∃ h, m.histories[i]? = some h ∧ h[t]? = some s := by
  rw [stateAt]
  cases hi : m.histories[i]? with
  | none => simp
  | some h => cases ht : h[t]? <;> simp [ht]

theorem isTrue_iff {letters : List Atom} {i : Nat} (hm : m.Timed) (hf : Sentence letters f)
    (hi : m.histories[i]? = some h) (ht : t < 2 * m.m - 1) : m.isTrue f i t = .ok true ↔ m.Holds f h t := by
  obtain ⟨b, hb, hiff⟩ := isTrue_gives hm hf hi ht
  rw [hb, Except.ok.injEq, hiff]

end Model

/-- Among histories that are closed under shifts, a sentence without tense operators has the same truth value wherever
the state is the same; so what is necessary holds at all later and earlier times, and what holds at some later or earlier
time is possible. -/
theorem tenseless_sentences_are_perpetual (hm : m.Timed) (hclosed : m.ShiftClosed)
    (hf : ∀ op ∈ f.operators, op ∈ Theory.bimodal.primitives ∧ op ∉ tenses) :
    (∀ i t j u s, m.stateAt i t = .ok s → m.stateAt j u = .ok s →
      ∃ b, m.isTrue f i t = .ok b ∧ m.isTrue f j u = .ok b) ∧
    ∀ i < m.histories.length, ∀ t < 2 * m.m - 1,
      (m.isTrue (.unary .box f) i t = .ok true →
        m.isTrue (.unary .future f) i t = .ok true ∧ m.isTrue (.unary .past f) i t = .ok true) ∧
      (m.isTrue (.unary .someFuture f) i t = .ok true ∨ m.isTrue (.unary .somePast f) i t = .ok true →
        m.isTrue (.unary .diamond f) i t = .ok true) := by
  have hsentence : Sentence f.atoms f := .of_over ⟨fun op hop => (hf op hop).1, fun a ha => ha⟩
  have hover : f.Over (Theory.bimodal.primitives.filter (· ∉ tenses)) f.atoms :=
    ⟨fun op hop => List.mem_filter.2 ⟨(hf op hop).1, decide_eq_true (hf op hop).2⟩, fun a ha => ha⟩
  have hdetermined : m.Determined f := Model.determined_of_over hm hclosed hover
  refine ⟨fun i t j u s hi hj => ?_, fun i hi t ht => ?_⟩
  · obtain ⟨h, hih, hs⟩ := Model.stateAt_eq_ok.1 hi
    obtain ⟨k, hjk, hs'⟩ := Model.stateAt_eq_ok.1 hj
    have ht : t < 2 * m.m - 1 := hm.length h (List.mem_of_getElem? hih) ▸ (List.getElem?_eq_some_iff.1 hs).1
    have hu : u < 2 * m.m - 1 := hm.length k (List.mem_of_getElem? hjk) ▸ (List.getElem?_eq_some_iff.1 hs').1
    obtain ⟨b, hb, hiff⟩ := Model.isTrue_gives hm hsentence hih ht
    obtain ⟨c, hc, hiff'⟩ := Model.isTrue_gives hm hsentence hjk hu
    have hsame : b = c := Bool.eq_iff_iff.2 (by rw [hiff, hiff', hdetermined ht hu hs hs'])
    exact ⟨b, hb, hsame ▸ hc⟩
  · obtain ⟨h, hih⟩ := Model.exists_at hi
    have hh := List.mem_of_getElem? hih
    rw [Model.isTrue_iff hm (.box hsentence) hih ht, Model.isTrue_iff hm (.future hsentence) hih ht,
      Model.isTrue_iff hm (.past hsentence) hih ht, Model.isTrue_iff hm (.someFuture hsentence) hih ht,
      Model.isTrue_iff hm (.somePast hsentence) hih ht, Model.isTrue_iff hm (.diamond hsentence) hih ht]
    refine ⟨fun hbox => ⟨fun u _ hu => ?_, fun u hu => ?_⟩, ?_⟩
    · exact hdetermined.holds_of_all hm hclosed ht hu hbox hh
    · exact hdetermined.holds_of_all hm hclosed ht (by omega) hbox hh
    · rintro (⟨u, -, hu, hholds⟩ | ⟨u, hu, hholds⟩)
      · exact hdetermined.exists_holds hm hclosed ht hu hh hholds
      · exact hdetermined.exists_holds hm hclosed ht (by omega) hh hholds

/-- Two histories that go to and fro between two states, and a letter that is true at one of them. -/
def alternating : Model where
  space := ⟨1⟩
  m := 2
  histories := [[⟨0⟩, ⟨1⟩, ⟨0⟩], [⟨1⟩, ⟨0⟩, ⟨1⟩]]
  valuation := [(⟨'P', rfl⟩, .singleton ⟨1⟩)]

theorem alternating_timed : alternating.Timed where
  pos := by decide
  word := by decide
  length := by decide

/-- Moved by one step, each of the two histories is the other. -/
theorem alternating_shiftClosed : alternating.ShiftClosed := by
  have hshifted : ∀ forward, Shifted [⟨0⟩, ⟨1⟩, ⟨0⟩] [⟨1⟩, ⟨0⟩, ⟨1⟩] forward ∧
      Shifted [⟨1⟩, ⟨0⟩, ⟨1⟩] [⟨0⟩, ⟨1⟩, ⟨0⟩] forward := by
    intro forward
    cases forward <;> refine ⟨fun t ht => ?_, fun t ht => ?_⟩ <;>
      · have ht : t < 2 := Nat.lt_of_succ_lt_succ ht
        interval_cases t <;> rfl
  intro h hh forward
  rcases List.mem_cons.1 hh with rfl | hh
  · exact ⟨_, List.mem_cons_of_mem _ List.mem_cons_self, (hshifted forward).1⟩
  · obtain rfl := List.mem_singleton.1 hh
    exact ⟨_, List.mem_cons_self, (hshifted forward).2⟩

/-- The letter holds at one place as at another where the state is the same. On the second history it does not hold now
but later, so it is possible; that it is possible is necessary, and has always been and will always be the case. -/
theorem tenseless_sentences_are_perpetual_alternating :
    let a := Formula.atom ⟨'P', rfl⟩
    let b := Formula.unary .diamond a
    alternating.Timed ∧ alternating.ShiftClosed ∧
      (∀ op ∈ a.operators, op ∈ Theory.bimodal.primitives ∧ op ∉ tenses) ∧
      (∀ op ∈ b.operators, op ∈ Theory.bimodal.primitives ∧ op ∉ tenses) ∧
      alternating.stateAt 0 1 = .ok ⟨1⟩ ∧ alternating.stateAt 1 2 = .ok ⟨1⟩ ∧
      (∃ t, alternating.isTrue a 0 1 = .ok t ∧ alternating.isTrue a 1 2 = .ok t) ∧
      alternating.isTrue a 1 1 = .ok false ∧ alternating.isTrue (.unary .someFuture a) 1 1 = .ok true ∧
      alternating.isTrue b 1 1 = .ok true ∧ alternating.isTrue (.unary .box b) 1 1 = .ok true ∧
      alternating.isTrue (.unary .future b) 1 1 = .ok true ∧ alternating.isTrue (.unary .past b) 1 1 = .ok true := by
  intro a b
  have ha : ∀ op ∈ a.operators, op ∈ Theory.bimodal.primitives ∧ op ∉ tenses := by decide +kernel
  have hb : ∀ op ∈ b.operators, op ∈ Theory.bimodal.primitives ∧ op ∉ tenses := by decide +kernel
  obtain ⟨hsame, hperpetual⟩ := tenseless_sentences_are_perpetual alternating_timed alternating_shiftClosed ha
  obtain ⟨-, hperpetual'⟩ := tenseless_sentences_are_perpetual alternating_timed alternating_shiftClosed hb
  have hlater : alternating.isTrue (.unary .someFuture a) 1 1 = .ok true := rfl
  have hbox : alternating.isTrue (.unary .box b) 1 1 = .ok true := rfl
  exact ⟨alternating_timed, alternating_shiftClosed, ha, hb, rfl, rfl, hsame 0 1 1 2 ⟨1⟩ rfl rfl, rfl, hlater,
    (hperpetual 1 (by decide) 1 (by decide)).2 (.inl hlater), hbox, (hperpetual' 1 (by decide) 1 (by decide)).1 hbox⟩

end Countermodels.History
