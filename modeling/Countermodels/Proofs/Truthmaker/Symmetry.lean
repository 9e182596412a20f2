import Countermodels.Proofs.Truthmaker.Build
import Countermodels.Proofs.Truthmaker.Renaming

/-! Breaking symmetry. Of the models that differ from one by a permutation of the atomic states, the one
whose list of truth values comes first is kept, so every model has an image that is kept. -/

namespace Countermodels

namespace Truthmaker

variable {m : Model} {s : State}

namespace Model

/-- What is the case with a state, in the order in which the literals of a state stand. -/
def row (m : Model) (s : State) : List Bool :=
  [decide (s ∈ m.possible), decide (s = m.evalWorld)] ++
    m.valuation.meanings.flatMap fun c => [decide (s ∈ c.ver), decide (s ∈ c.fal)]

/-- The rows of all states, each found at its image. -/
def profile (m : Model) (image : State → State) : List Bool := m.space.states.flatMap fun s => m.row (image s)

/-- No exchange of neighbouring atomic states gives a profile that comes earlier. -/
def Leads (m : Model) : Prop :=
  ∀ i ∈ List.range (m.space.n - 1), Ordered false (m.profile id) (m.profile (·.swapBits i (i + 1)))

theorem length_profile (m : Model) (image : State → State) :
    (m.profile image).length = m.space.states.length * (2 + 2 * m.valuation.length) := by
  have hrow : ∀ s, (m.row s).length = 2 + 2 * m.valuation.length := fun s => by
    simp only [row, Valuation.meanings, List.length_append, List.length_flatMap, List.length_cons, List.length_nil,
      List.map_const', List.length_map, List.sum_replicate, smul_eq_mul]
    omega
  simp [profile, List.length_flatMap, hrow]

theorem profile_congr {k : Model} {image image' : State → State} (hspace : m.space = k.space)
    (h : ∀ s ∈ m.space.states, m.row (image s) = k.row (image' s)) : m.profile image = k.profile image' := by
  rw [profile, profile, ← hspace, List.flatMap, List.flatMap, List.map_congr_left h]

namespace Admissible

variable {settings : Settings} {letters : List Atom} (hm : m.Admissible settings letters)
include hm

/-- To look at the image of a state in a model is to look at the state in another image of the model. -/
theorem row_permute (π ρ : Equiv.Perm (Fin m.space.n)) (hs : s ∈ m.space.states) :
    (m.permute π).row (s.permute ρ) = (m.permute (ρ⁻¹ * π)).row s := by
  have hp := hm.placed
  have hlt := hp.mem_states.1 hs
  have hset : ∀ {a : StateSet}, (∀ s ∈ a, s ∈ m.space.states) →
      (s.permute ρ ∈ a.permute π ↔ s ∈ a.permute (ρ⁻¹ * π)) := by
    intro a ha
    rw [StateSet.permute_mul, ← StateSet.permute_mem_permute (π := ρ⁻¹) (StateSet.permute_located ha) (State.permute_lt ρ s),
      State.permute_permute_inv ρ hlt]
  have heval : s.permute ρ = m.evalWorld.permute π ↔ s = m.evalWorld.permute (ρ⁻¹ * π) := by
    rw [State.permute_mul, ← State.permute_inj (π := ρ⁻¹) (State.permute_lt ρ s) (State.permute_lt π _),
      State.permute_permute_inv ρ hlt]
  simp only [row, Model.permute, Content.permute, Valuation.meanings, List.map_map, List.flatMap_map, hset hp.possible, heval]
  congr 1
  rw [List.flatMap, List.flatMap]
  refine congrArg List.flatten (List.map_congr_left fun p hmem => ?_)
  have hlocated := (hm.allows p hmem).located
  simp only [Function.comp_apply, hset fun s hs => hlocated s (.inl hs), hset fun s hs => hlocated s (.inr hs)]

theorem profile_permute (π ρ : Equiv.Perm (Fin m.space.n)) :
    (m.permute π).profile (·.permute ρ) = (m.permute (ρ⁻¹ * π)).profile id :=
  profile_congr rfl fun _ hs => hm.row_permute π ρ hs

/-- Among the images of a model there is one that leads: the one whose profile is least. -/
theorem exists_leader : ∃ π, (m.permute π).Leads := by
  obtain ⟨π, hleast⟩ := Finite.exists_min fun π : Equiv.Perm (Fin m.space.n) => (m.permute π).profile id
  refine ⟨π, fun i hi => ?_⟩
  have hi' : i + 1 < m.space.n := by
    have := List.mem_range.1 hi
    have hspace : (m.permute π).space = m.space := rfl
    rw [hspace] at this
    omega
  have hswap : (m.permute π).profile (·.swapBits i (i + 1)) =
      (m.permute π).profile (·.permute (Equiv.swap ⟨i, Nat.lt_of_succ_lt hi'⟩ ⟨i + 1, hi'⟩)) :=
    profile_congr rfl fun s hs => congrArg _ (State.swapBits_eq_permute (StateSpace.mem_states.1 hs).2
      ⟨i, Nat.lt_of_succ_lt hi'⟩ ⟨i + 1, hi'⟩)
  rw [hswap, hm.profile_permute, ordered_iff_le]
  · exact hleast _
  · rw [length_profile, length_profile]
    simp [Model.permute]

end Admissible

end Model

namespace Frame

variable {f : Frame} {v : Valuation ContentLits} {n : Nat} {σ : Nat → Bool}

/-- The literals of a state are true just if its row in the model says so. -/
theorem row_reading (hσ : f.Realized σ) (hf : f.Known n) (hs : s ∈ f.space.states) :
    (f.row v s).map (·.holds σ) = (f.reading v σ).row s := by
  have hlt := (hσ.mem_states_iff hf).1 hs
  have hpossible : (f.isPossible s).holds σ = decide (s ∈ (f.reading v σ).possible) := by
    rw [Bool.eq_iff_iff, decide_eq_true_eq, hσ.mem_possible hf hlt]
  have heval : (f.isEval s).holds σ = decide (s = (f.reading v σ).evalWorld) := by
    rw [Bool.eq_iff_iff, decide_eq_true_eq]
    exact (hσ.chosen_spec hf).2.2 s hs
  have hver : ∀ c : ContentLits, (litAt c.ver s).holds σ = decide (s ∈ (f.content σ c).ver) := fun c => by
    rw [Bool.eq_iff_iff, decide_eq_true_eq, content_ver hσ hf hlt]
  have hfal : ∀ c : ContentLits, (litAt c.fal s).holds σ = decide (s ∈ (f.content σ c).fal) := fun c => by
    rw [Bool.eq_iff_iff, decide_eq_true_eq, content_fal hσ hf hlt]
  simp only [row, Model.row, List.map_append, List.map_cons, List.map_nil, hpossible, heval, List.map_flatMap, hver, hfal]
  simp [reading, Valuation.meanings, List.flatMap_map]

theorem profile_reading (hσ : f.Realized σ) (hf : f.Known n) (image : State → State)
    (himage : ∀ s ∈ f.space.states, image s ∈ f.space.states) :
    f.profile v σ image = (f.reading v σ).profile image := by
  rw [profile, Model.profile, List.map_flatMap, List.flatMap, List.flatMap]
  exact congrArg List.flatten (List.map_congr_left fun s hs => row_reading hσ hf (himage s hs))

theorem leads_reading (hσ : f.Realized σ) (hf : f.Known n) : (f.reading v σ).Leads ↔
    ∀ i ∈ List.range (f.space.n - 1), Ordered false (f.profile v σ id) (f.profile v σ (·.swapBits i (i + 1))) := by
  refine forall₂_congr fun i hi => ?_
  have hlt : i + 1 < f.space.n := by
    have hi : i < f.space.n - 1 := List.mem_range.1 hi
    omega
  rw [profile_reading hσ hf id fun s hs => hs, profile_reading hσ hf _ fun s hs => swapBits_mem hlt hs]

end Frame

section broken

variable {settings : Settings} {letters : List Atom} {σ : Nat → Bool}

/-- The model that an assignment describes to the encoder. -/
def described (settings : Settings) (letters : List Atom) (σ : Nat → Bool) : Model :=
  (openingFrame settings letters).reading (openingValuation settings letters) σ

theorem described_congr {τ : Nat → Bool} (h : Agree (openingCnf settings letters).numVars σ τ) :
    described settings letters σ = described settings letters τ :=
  Frame.reading_congr h (opening_describes settings letters).known (opening_describes settings letters).tabled

/-- An assignment that describes a leading model can be continued so that the clauses that break symmetry are
true. -/
theorem exists_broken (hσ : (openingCnf settings letters).satisfiedBy σ)
    (hleads : (described settings letters σ).Leads) :
    ∃ τ, Agree (openingCnf settings letters).numVars σ τ ∧ (brokenCnf settings letters).satisfiedBy τ := by
  have hopen := opening_describes settings letters
  have hcond := (Frame.leads_reading (hopen.realized σ hσ) hopen.known).1 hleads
  rw [hopen.space_eq] at hcond
  obtain ⟨τ, hστ, hτ⟩ := (broken_restricts settings letters).complete σ (Basis.sat_start.2 hσ) hcond
  exact ⟨τ, hστ, Basis.sat_start.1 hτ⟩

/-- Every admissible model has an image that some assignment describes, with symmetry broken. -/
theorem exists_broken_image {m : Model} (hm : m.Admissible settings letters) :
    ∃ π σ, (brokenCnf settings letters).satisfiedBy σ ∧ described settings letters σ = m.permute π := by
  obtain ⟨π, hleads⟩ := hm.exists_leader
  obtain ⟨σ, hσ, hdesc⟩ := (opening_describes settings letters).complete (m.permute π) (hm.permute π)
  change described settings letters σ = m.permute π at hdesc
  obtain ⟨τ, hστ, hτ⟩ := exists_broken hσ (hdesc ▸ hleads)
  exact ⟨π, τ, hτ, (described_congr hστ).symm.trans hdesc⟩

end broken

end Truthmaker

end Countermodels
