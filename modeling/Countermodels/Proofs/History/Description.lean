import Countermodels.Proofs.History.Footing

/-! Which histories the clauses of a frame admit, and in how many ways. The literals for slots in use and for their states
say which histories there are; the other variables, those for tasks and those that help to compare and to shift, follow
from them or can be chosen to fit. A main history and a set of others that together are closed under shifts have one
layout in the slots, so the clauses admit each of these families once. -/

namespace Countermodels.History

variable {space : StateSpace} {m : Nat} {main : List State} {ks : List (List State)} {others : Finset (List State)}

/-- A main history and a set of others, few enough for the slots of a frame, that together are closed under shifts. -/
structure Family (space : StateSpace) (m : Nat) (main : List State) (others : Finset (List State)) : Prop where
  notMem : main ∉ others
  few : others.card ≤ Frame.bound space.n m - 1
  length : ∀ h ∈ {main} ∪ others, h.length = 2 * m - 1
  states : ∀ h ∈ {main} ∪ others, ∀ s ∈ h, s ∈ space.states
  closed : ∀ h ∈ {main} ∪ others, ∀ forward, ∃ h' ∈ {main} ∪ others, Shifted h h' forward

theorem family_iff_bundle (hks : ks.Nodup) :
    Family space m main ks.toFinset ↔ Bundle space (2 * m - 1) (Frame.bound space.n m) (main :: ks) := by
  have hmem : ∀ {x : List State}, x ∈ {main} ∪ ks.toFinset ↔ x ∈ main :: ks := by simp
  have hpos := Frame.bound_pos space.n m
  constructor
  · intro hfamily
    have hfew := hfamily.few
    rw [List.toFinset_card_of_nodup hks] at hfew
    refine ⟨List.nodup_cons.2 ⟨mt List.mem_toFinset.2 hfamily.notMem, hks⟩, by rw [List.length_cons]; omega, ?_, ?_, ?_⟩
    · exact fun x hx => hfamily.length x (hmem.2 hx)
    · exact fun x hx => hfamily.states x (hmem.2 hx)
    · intro x hx forward
      obtain ⟨y, hy, hshift⟩ := hfamily.closed x (hmem.2 hx) forward
      exact ⟨y, hmem.1 hy, hshift⟩
  · intro hbundle
    have hfew := hbundle.few
    rw [List.length_cons] at hfew
    refine ⟨mt List.mem_toFinset.1 (List.nodup_cons.1 hbundle.nodup).1, ?_, ?_, ?_, ?_⟩
    · rw [List.toFinset_card_of_nodup hks]
      omega
    · exact fun x hx => hbundle.length x (hmem.1 hx)
    · exact fun x hx => hbundle.states x (hmem.1 hx)
    · intro x hx forward
      obtain ⟨y, hy, hshift⟩ := hbundle.closed x (hmem.1 hx) forward
      exact ⟨y, hmem.2 hy, hshift⟩

/-- The others can be listed with increasing codes. -/
theorem Family.exists_listing (hfamily : Family space m main others) :
    ∃ ks, Frame.Listing space m (main :: ks) ∧ ∀ x, x ∈ others ↔ x ∈ ks := by
  rw [← others.toList_toFinset] at hfamily
  have hbundle := (family_iff_bundle others.nodup_toList).1 hfamily
  obtain ⟨ks, hperm, hincreasing⟩ := hbundle.exists_increasing
  refine ⟨ks, ⟨hbundle.perm (hperm.cons main), List.cons_ne_nil _ _, hincreasing⟩, fun x => ?_⟩
  rw [← hperm.mem_iff, Finset.mem_toList]

namespace Frame

variable {f : Frame} {n : Nat} {σ τ : Nat → Bool} {clauses : Cnf}

/-- The first slot holds the main history, and the other slots in use hold the others. -/
def Depicts (f : Frame) (σ : Nat → Bool) (main : List State) (others : Finset (List State)) : Prop :=
  f.slot σ 0 = main ∧ ∀ x, x ∈ others ↔ ∃ h, f.Used σ (h + 1) ∧ f.slot σ (h + 1) = x

namespace Canonical

variable (hσ : f.Canonical σ)
include hσ

theorem exists_shown : ∃ ks, f.shown σ = f.slot σ 0 :: ks ∧ Increasing (code f.space) ks ∧
    ∀ x, x ∈ ks ↔ ∃ h, f.Used σ (h + 1) ∧ f.slot σ (h + 1) = x := by
  have hincreasing := hσ.increasing_others
  rw [hσ.shown_eq, List.drop_one, List.tail_cons] at hincreasing
  refine ⟨_, hσ.shown_eq, hincreasing, fun x => ?_⟩
  rw [List.mem_map]
  refine exists_congr fun h => and_congr_left' ?_
  rw [List.mem_range, hσ.used_iff]
  omega

theorem depicts_iff : f.Depicts σ main others ↔ ∃ ks, f.shown σ = main :: ks ∧ ∀ x, x ∈ others ↔ x ∈ ks := by
  obtain ⟨ks, hshown, -, hmem⟩ := hσ.exists_shown
  constructor
  · rintro ⟨rfl, hothers⟩
    exact ⟨ks, hshown, fun x => (hothers x).trans (hmem x).symm⟩
  · rintro ⟨js, heq, hothers⟩
    rw [hshown, List.cons.injEq] at heq
    obtain ⟨hmain, rfl⟩ := heq
    exact ⟨hmain, fun x => (hothers x).trans (hmem x)⟩

/-- A family has one layout. -/
theorem shown_eq_of_depicts (hτ : f.Canonical τ) (hdepicts : f.Depicts σ main others) (hdepicts' : f.Depicts τ main others) :
    f.shown σ = f.shown τ := by
  obtain ⟨ks, hshown, hincreasing, hmem⟩ := hσ.exists_shown
  obtain ⟨js, hshown', hincreasing', hmem'⟩ := hτ.exists_shown
  have hsame : ks = js := hincreasing.eq hincreasing' fun x =>
    (hmem x).trans (((hdepicts.2 x).symm.trans (hdepicts'.2 x)).trans (hmem' x).symm)
  rw [hshown, hshown', hdepicts.1, hdepicts'.1, hsame]

/-- Which histories there are, and which of them is the main one. -/
theorem exists_family (hf : f.Known n) (hset : f.Settled σ) (hslots : f.numHistories = bound f.space.n f.m) :
    ∃ main others, Family f.space f.m main others ∧ f.Depicts σ main others := by
  obtain ⟨ks, hshown, hincreasing, -⟩ := hσ.exists_shown
  have hbundle := hσ.bundle hf hset
  rw [hshown, hslots] at hbundle
  refine ⟨_, ks.toFinset, (family_iff_bundle hincreasing.nodup).2 hbundle, hσ.depicts_iff.2 ⟨ks, hshown, ?_⟩⟩
  exact fun x => List.mem_toFinset

theorem listing (hf : f.Known n) (hset : f.Settled σ) (hslots : f.numHistories = bound f.space.n f.m) :
    Listing f.space f.m (f.shown σ) where
  toBundle := hslots ▸ hσ.bundle hf hset
  nonempty := List.length_pos_iff.1 hσ.shown_pos
  increasing := hσ.increasing_others

/-- A layout is one by the slots in use and the histories in the slots. -/
theorem congr (hactive : ∀ h < f.numHistories, (f.isActive h).holds σ = (f.isActive h).holds τ)
    (hslot : ∀ h < f.numHistories, f.slot σ h = f.slot τ h) : f.Canonical τ := by
  have hused : ∀ {h}, f.Used τ h ↔ f.Used σ h := fun {h} => and_congr_right fun hh => by rw [hactive h hh]
  have hsame : ∀ {h}, f.Used τ h → f.slot τ h = f.slot σ h := fun hh => (hslot _ hh.1).symm
  refine ⟨hused.2 hσ.main, fun h hh => hused.2 (hσ.first h (hused.1 hh)), fun h hh t ht hidle => ?_, fun h hh => ?_,
    fun h hh => ?_, fun h hh forward => ?_⟩
  · have hstate : (f.slot σ h)[t]? = (f.slot τ h)[t]? := by rw [hslot h hh]
    rw [getElem?_slot ht, getElem?_slot ht, Option.some.injEq] at hstate
    rw [← hstate]
    exact hσ.idle h hh t ht (mt hused.2 hidle)
  · rw [hsame hh, hsame (hused.2 hσ.main)]
    exact hσ.differs h (hused.1 hh)
  · rw [hsame hh, hsame (hused.2 (hσ.first _ (hused.1 hh)))]
    exact hσ.increasing h (hused.1 hh)
  · obtain ⟨h', hh', hshift⟩ := hσ.closed h (hused.1 hh) forward
    refine ⟨h', hused.2 hh', ?_⟩
    rwa [hsame hh, hsame (hused.2 hh')]

end Canonical

theorem Settled.congr (hσ : f.Settled σ) (hagree : ∀ l ∈ f.essential, l.holds σ = l.holds τ) : f.Settled τ := by
  intro h hh t ht
  refine (hσ h hh t ht).congr fun l hl => hagree l (List.mem_append_right _ ?_)
  exact List.mem_flatMap.2 ⟨h, mem_histories.2 hh, List.mem_flatMap.2 ⟨t, List.mem_range.2 ht, hl⟩⟩

/-- The clauses admit the families of histories, each of them in one way. -/
structure Admits (f : Frame) (clauses : Cnf) (space : StateSpace) (m : Nat) : Prop where
  space_eq : f.space = space
  m_eq : f.m = m
  slots : f.numHistories = bound space.n m
  /-- Values of the literals for slots in use and for states can be extended just if they are a layout. -/
  extends_iff : ∀ σ, (∃ τ, clauses.satisfiedBy τ ∧ ∀ l ∈ f.essential, l.holds τ = l.holds σ) ↔
    f.Settled σ ∧ f.Canonical σ
  /-- Tasks are the steps of the histories in use. -/
  task_iff : ∀ τ, clauses.satisfiedBy τ → ∀ s ∈ space.states, ∀ s' ∈ space.states, (f.isTask s s').holds τ = true ↔
    ∃ h, f.Used τ h ∧ ∃ t, t + 1 < f.numTimes ∧ f.stateOf τ h t = s ∧ f.stateOf τ h (t + 1) = s'
  family : ∀ τ, clauses.satisfiedBy τ → ∃ main others, Family space m main others ∧ f.Depicts τ main others
  once : ∀ main others, Family space m main others → ∃! values : List Bool, ∃ τ, clauses.satisfiedBy τ ∧
    f.Depicts τ main others ∧ f.essential.map (·.holds τ) = values

/-- What is written for a frame admits the families of histories. -/
theorem Opened.admits (ho : Opened Basis.start {} space m (f, clauses)) : f.Admits clauses space m := by
  obtain ⟨hspace, hfm, hslots, hf, -, -, hsettled, harranged, hcomplete⟩ := ho
  dsimp only at hspace hfm hslots hf hsettled harranged hcomplete
  subst hspace hfm
  have hset : ∀ {τ}, clauses.satisfiedBy τ → f.Settled τ := fun hτ => hsettled _ (Basis.sat_start.2 hτ)
  have harr : ∀ {τ}, clauses.satisfiedBy τ → f.Arranged τ := fun hτ => harranged _ (Basis.sat_start.2 hτ)
  have hexists : ∀ {hs}, Listing f.space f.m hs → ∃ τ, clauses.satisfiedBy τ ∧ f.shown τ = hs := by
    intro hs hl
    obtain ⟨τ, -, hτ, hshown⟩ := hcomplete (fun _ => false) (Basis.sat_start.2 (by simp [Cnf.satisfiedBy])) hs hl
    exact ⟨τ, Basis.sat_start.1 hτ, hshown⟩
  refine ⟨rfl, rfl, hslots, fun σ => ⟨?_, ?_⟩, fun τ hτ => (harr hτ).task, fun τ hτ => ?_, fun main others hfamily => ?_⟩
  · rintro ⟨τ, hτ, hagree⟩
    have hσ := (hset hτ).congr hagree
    obtain ⟨hactive, hslot⟩ := (essential_agree_iff hf (hset hτ) hσ).1 hagree
    exact ⟨hσ, (harr hτ).toCanonical.congr hactive hslot⟩
  · rintro ⟨hσ, hcanonical⟩
    -- the histories of a layout are shown by some satisfying assignment, and there in the same slots
    obtain ⟨τ, hτ, hshown⟩ := hexists (hcanonical.listing hf hσ hslots)
    exact ⟨τ, hτ, (shown_eq_iff hf (hset hτ) hσ (harr hτ).toCanonical hcanonical).1 hshown⟩
  · exact (harr hτ).toCanonical.exists_family hf (hset hτ) hslots
  · obtain ⟨ks, hlisting, hmem⟩ := hfamily.exists_listing
    obtain ⟨τ, hτ, hshown⟩ := hexists hlisting
    have hdepicts := (harr hτ).toCanonical.depicts_iff.2 ⟨ks, hshown, hmem⟩
    refine ⟨_, ⟨τ, hτ, hdepicts, rfl⟩, ?_⟩
    rintro _ ⟨υ, hυ, hdepicts', rfl⟩
    have hsame := (harr hυ).toCanonical.shown_eq_of_depicts (harr hτ).toCanonical hdepicts' hdepicts
    exact List.map_inj_left.2 ((shown_eq_iff hf (hset hυ) (hset hτ) (harr hυ).toCanonical (harr hτ).toCanonical).1 hsame)

/-- A new frame admits the families of histories, each of them in one way, unless the deadline comes before it is
written. -/
theorem new_admits_families (space : StateSpace) {m : Nat} (hm : 1 ≤ m) (D : Deadline) :
    (∃ f d, new space m { deadline := D } = .ok f d ∧ f.Admits d.cnf space m) ∨
      ∃ e d, new space m { deadline := D } = .error e d ∧ D.Late e := by
  rcases (keeps_new space m D { deadline := D } (.refl D)).outcome with ⟨f, d, hrun, -, hwritten⟩ | hlate
  · have hopened := write_opened Basis.fits_start space hm
    rw [← hwritten] at hopened
    exact .inl ⟨f, d, hrun, hopened.admits⟩
  · exact .inr hlate

/-- A history that comes and goes, and the one that goes and comes. -/
theorem new_admits_families_alternating : 1 ≤ 2 ∧ Family ⟨1⟩ 2 [⟨0⟩, ⟨1⟩, ⟨0⟩] {[⟨1⟩, ⟨0⟩, ⟨1⟩]} ∧
    ∃ f d, new ⟨1⟩ 2 { deadline := .never } = .ok f d ∧ ∃! values : List Bool, ∃ τ, d.cnf.satisfiedBy τ ∧
      f.Depicts τ [⟨0⟩, ⟨1⟩, ⟨0⟩] {[⟨1⟩, ⟨0⟩, ⟨1⟩]} ∧ f.essential.map (·.holds τ) = values := by
  have hfamily : Family ⟨1⟩ 2 [⟨0⟩, ⟨1⟩, ⟨0⟩] {[⟨1⟩, ⟨0⟩, ⟨1⟩]} := by
    refine ⟨by decide, by decide, by decide, by decide, fun h hh forward => ?_⟩
    have hswap : ∀ {a b : State} {forward : Bool}, Shifted [a, b, a] [b, a, b] forward := by
      intro a b forward
      cases forward <;>
      · intro t ht
        have ht : t + 1 < 3 := ht
        have ht : t < 2 := by omega
        interval_cases t <;> rfl
    rcases Finset.mem_union.1 hh with hh | hh <;> obtain rfl := Finset.mem_singleton.1 hh
    · exact ⟨[⟨1⟩, ⟨0⟩, ⟨1⟩], by decide, hswap⟩
    · exact ⟨[⟨0⟩, ⟨1⟩, ⟨0⟩], by decide, hswap⟩
  have hopen : Deadline.never.Open := fun _ => rfl
  have htwo : 1 ≤ 2 := by decide
  rcases new_admits_families ⟨1⟩ htwo .never with ⟨f, d, hrun, hadmits⟩ | ⟨e, d, -, hlate⟩
  · exact ⟨htwo, hfamily, f, d, hrun, hadmits.once _ _ hfamily⟩
  · exact absurd hlate (hopen.not_late e)

end Frame

end Countermodels.History
