import Countermodels.Proofs.Sat.Heap

/-! The heap as an order. No key is higher than the one at its parent's place, so the first key is a highest one. A sift
moves a hole through the heap: the pairs of places that the hole does not touch are in order, and its neighbours are in
the order that the direction of the sift needs. -/

namespace Countermodels.Sat.Heap

/-- The order of the priorities at some moment: `above a b` says that the priority of `a` is higher than that of `b`. -/
structure Ranking where
  above : Nat → Nat → Bool
  weak : IsStrictWeakOrder Nat (above · · = true)

namespace Ranking

variable {r : Ranking} {a b c : Nat}

/-- Keys ranked by priorities that are compared with each other. -/
def ofPriority {P : Type} [LinearOrder P] (p : Nat → P) : Ranking where
  above a b := decide (p b < p a)
  weak := by
    simp only [decide_eq_true_eq]
    exact
      { irrefl := fun a => lt_irrefl (p a)
        trans := fun a b c hab hbc => hbc.trans hab
        incomp_trans := fun a b c hab hbc => by
          rw [not_lt, not_lt] at hab hbc ⊢
          exact ⟨hab.1.trans hbc.1, hbc.2.trans hab.2⟩ }

/-- The order, as it is handed to an operation. -/
def higher (r : Ranking) : Higher := fun a b => .ok (r.above a b)

theorem answers (r : Ranking) (n : Nat) : Answers n r.higher := fun _ _ _ _ => .ok trivial

theorem irrefl (r : Ranking) (a : Nat) : r.above a a = false :=
  Bool.eq_false_iff.2 (r.weak.irrefl a)

theorem asymm (h : r.above a b = true) : r.above b a = false :=
  Bool.eq_false_iff.2 fun h' => r.weak.irrefl a (r.weak.trans a b a h h')

/-- In a strict weak order a comparison that fails is passed on like one that holds. -/
theorem not_above_trans (hab : r.above a b = false) (hbc : r.above b c = false) : r.above a c = false := by
  rw [Bool.eq_false_iff] at hab hbc ⊢
  intro hac
  by_cases hba : r.above b a = true
  · exact hbc (r.weak.trans b a c hba hac)
  · by_cases hcb : r.above c b = true
    · exact hab (r.weak.trans a c b hac hcb)
    · exact (r.weak.incomp_trans a b c ⟨hab, hba⟩ ⟨hbc, hcb⟩).1 hac

end Ranking

/-- The key at a place. -/
def key (h : Heap) (i : Nat) : Nat := h.keys.getD i 0

/-- No child is higher than its parent. -/
def Ordered (r : Ranking) (h : Heap) : Prop :=
  ∀ i, 0 < i → i < h.size → r.above (h.key i) (h.key ((i - 1) / 2)) = false

variable {r : Ranking} {h : Heap} {i j k x : Nat}

@[simp] theorem size_put : (h.put i k).size = h.size := size_keys_put

theorem key_put (hi : i < h.size) : (h.put i k).key j = if j = i then k else h.key j := by
  rw [key, put, Table.getD_setIfInBounds hi, key]

theorem getElem?_eq_key (hi : i < h.size) : h.keys[i]? = some (h.key i) := by
  rw [key, Array.getD_eq_getD_getElem?, Array.getElem?_eq_getElem hi]
  rfl

theorem read_key (hi : i < h.size) : Table.read h.keys i = .ok (h.key i) :=
  Table.read_of_some (getElem?_eq_key hi)

/-- The first key is a highest one. -/
theorem Ordered.top (ho : Ordered r h) (hi : i < h.size) : r.above (h.key i) (h.key 0) = false := by
  induction i using Nat.strongRecOn with
  | _ i ih =>
    rcases Nat.eq_zero_or_pos i with rfl | hpos
    · exact r.irrefl _
    · exact Ranking.not_above_trans (ho i hpos hi) (ih ((i - 1) / 2) (by omega) (by omega))

/-- The pairs of places that a hole does not touch are in order. -/
def OrderedBut (r : Ranking) (h : Heap) (hole : Nat) : Prop :=
  ∀ i, 0 < i → i < h.size → i ≠ hole → (i - 1) / 2 ≠ hole → r.above (h.key i) (h.key ((i - 1) / 2)) = false

/-- No child of the hole is higher than the parent of the hole. -/
def Bridged (r : Ranking) (h : Heap) (hole : Nat) : Prop :=
  ∀ i, 0 < i → i < h.size → (i - 1) / 2 = hole → 0 < hole → r.above (h.key i) (h.key ((hole - 1) / 2)) = false

/-- A hole from which `x` may have to rise. -/
structure Rising (r : Ranking) (h : Heap) (hole x : Nat) : Prop where
  but : OrderedBut r h hole
  bridged : Bridged r h hole
  children : ∀ i, 0 < i → i < h.size → (i - 1) / 2 = hole → r.above (h.key i) x = false

/-- A hole from which `x` may have to sink. -/
structure Sinking (r : Ranking) (h : Heap) (hole x : Nat) : Prop where
  but : OrderedBut r h hole
  bridged : Bridged r h hole
  parent : 0 < hole → r.above x (h.key ((hole - 1) / 2)) = false

/-- A hole can be filled by what fits between its neighbours. -/
theorem OrderedBut.fill (hb : OrderedBut r h i) (hi : i < h.size)
    (hchildren : ∀ j, 0 < j → j < h.size → (j - 1) / 2 = i → r.above (h.key j) x = false)
    (hparent : 0 < i → r.above x (h.key ((i - 1) / 2)) = false) : Ordered r (h.put i x) := by
  intro j hj hlt
  rw [size_put] at hlt
  rw [key_put hi, key_put hi]
  by_cases hji : j = i
  · subst hji
    rw [if_pos rfl, if_neg (by omega)]
    exact hparent hj
  · rw [if_neg hji]
    by_cases hp : (j - 1) / 2 = i
    · rw [if_pos hp]
      exact hchildren j hj hlt hp
    · rw [if_neg hp]
      exact hb j hj hlt hji hp

namespace Rising

/-- The parent is lower, and takes the hole. -/
theorem move (ho : Rising r h i x) (hi : i < h.size) (hpos : 0 < i) (hup : r.above x (h.key ((i - 1) / 2)) = true) :
    Rising r (h.put i (h.key ((i - 1) / 2))) ((i - 1) / 2) x := by
  -- where the hole goes, the pair above it was in order
  have hgrand : 0 < (i - 1) / 2 → r.above (h.key ((i - 1) / 2)) (h.key (((i - 1) / 2 - 1) / 2)) = false :=
    fun hp => ho.but _ hp (by omega) (by omega) (by omega)
  have hsibling : ∀ j, 0 < j → j < h.size → j ≠ i → (j - 1) / 2 = (i - 1) / 2 →
      r.above (h.key j) (h.key ((i - 1) / 2)) = false := fun j hj hlt hji hp =>
    hp ▸ ho.but j hj hlt hji (by omega)
  refine ⟨fun j hj hlt hjp hp => ?_, fun j hj hlt hp hpos' => ?_, fun j hj hlt hp => ?_⟩ <;> rw [size_put] at hlt
  · rw [key_put hi, key_put hi, if_neg (fun hji => hp (by rw [hji]))]
    split
    · next hpi => exact ho.bridged j hj hlt hpi hpos
    · next hpi => exact ho.but j hj hlt (fun hji => hp (by rw [hji])) hpi
  · rw [key_put hi, key_put hi, if_neg (show ((i - 1) / 2 - 1) / 2 ≠ i by omega)]
    split
    · exact hgrand hpos'
    · next hji => exact Ranking.not_above_trans (hsibling j hj hlt hji hp) (hgrand hpos')
  · rw [key_put hi]
    split
    · exact Ranking.asymm hup
    · next hji => exact Ranking.not_above_trans (hsibling j hj hlt hji hp) (Ranking.asymm hup)

end Rising

theorem siftUp_ordered (ho : Rising r h i x) (hi : i < h.size) : Gives (siftUp r.higher x i h) (Ordered r) := by
  induction i using Nat.strongRecOn generalizing h with
  | _ i ih =>
    rw [siftUp]
    split
    · next h0 => exact .ok (h0 ▸ ho.but.fill hi ho.children (by omega))
    · next h0 =>
      have hlt : (i - 1) / 2 < h.size := by omega
      dsimp only
      rw [read_key hlt, ok_bind, Ranking.higher, ok_bind]
      split
      · next hup => exact ih _ (by omega) (ho.move hi (by omega) hup) (by simpa using hlt)
      · next hup => exact .ok (ho.but.fill hi ho.children fun _ => by simpa using hup)

/-- The place `j` is a child of the place `i`, and no child of it is higher. -/
structure HighestChild (r : Ranking) (h : Heap) (i j : Nat) : Prop where
  pos : 0 < j
  lt : j < h.size
  parent : (j - 1) / 2 = i
  highest : ∀ c, 0 < c → c < h.size → (c - 1) / 2 = i → r.above (h.key c) (h.key j) = false

/-- Of two children only the other one has to be looked at. -/
theorem HighestChild.of_other (hlt : j < h.size) (hchild : j = 2 * i + 1 ∨ j = 2 * i + 2)
    (hother : ∀ c, c ≠ j → c < h.size → c = 2 * i + 1 ∨ c = 2 * i + 2 → r.above (h.key c) (h.key j) = false) :
    HighestChild r h i j where
  pos := by omega
  lt := hlt
  parent := by omega
  highest c hc hclt hp := by
    by_cases hcj : c = j
    · exact hcj ▸ r.irrefl _
    · exact hother c hcj hclt (by omega)

/-- The higher child is found, if there is a child. -/
theorem higherChild_highest (r : Ranking) (h : Heap) (i : Nat) : Gives (higherChild r.higher i h) fun c =>
    (c = none → h.size ≤ 2 * i + 1) ∧ ∀ j, c = some j → HighestChild r h i j := by
  have some_of : ∀ j, HighestChild r h i j → Gives (pure (some j) : Except Fault (Option Nat)) fun c =>
      (c = none → h.size ≤ 2 * i + 1) ∧ ∀ j, c = some j → HighestChild r h i j := fun j hj =>
    .pure ⟨fun hnone => absurd hnone (by simp), fun j' hj' => Option.some.inj hj' ▸ hj⟩
  unfold higherChild
  dsimp only
  rw [← size]
  split
  · next hl =>
    split
    · next hr =>
      rw [read_key hr, ok_bind, read_key hl, ok_bind, Ranking.higher, ok_bind]
      split
      · next hright =>
        refine some_of _ (.of_other hr (by omega) fun c hc _ hchild => ?_)
        rw [show c = 2 * i + 1 by omega]
        exact Ranking.asymm hright
      · next hright =>
        refine some_of _ (.of_other hl (by omega) fun c hc _ hchild => ?_)
        rw [show c = 2 * i + 1 + 1 by omega]
        simpa using hright
    · next hr => exact some_of _ (.of_other hl (by omega) fun c hc hlt hchild => absurd hlt (by omega))
  · next hl => exact .pure ⟨fun _ => by omega, fun j hj => by cases hj⟩

/-- The higher child takes the hole. -/
theorem Sinking.move (ho : Sinking r h i x) (hi : i < h.size) (hj : HighestChild r h i j)
    (hup : r.above (h.key j) x = true) : Sinking r (h.put i (h.key j)) j x := by
  obtain ⟨hpos, hjlt, hji, hhighest⟩ := hj
  refine ⟨fun c hc hlt hcj hp => ?_, fun c hc hlt hp _ => ?_, fun _ => ?_⟩
  · rw [size_put] at hlt
    rw [key_put hi, key_put hi]
    by_cases hci : c = i
    · subst hci
      rw [if_pos rfl, if_neg (by omega)]
      exact ho.bridged j hpos hjlt hji hc
    · rw [if_neg hci]
      split
      · next hpi => exact hhighest c hc hlt hpi
      · next hpi => exact ho.but c hc hlt hci hpi
  · rw [size_put] at hlt
    rw [hji, key_put hi, key_put hi, if_pos rfl, if_neg (by omega), ← hp]
    exact ho.but c hc hlt (by omega) (by omega)
  · rw [hji, key_put hi, if_pos rfl]
    exact Ranking.asymm hup

theorem siftDown_ordered {fuel : Nat} (ho : Sinking r h i x) (hi : i < h.size) (hfuel : h.size ≤ i + fuel) :
    Gives (siftDown r.higher x fuel i h) (Ordered r) := by
  induction fuel generalizing i h with
  | zero => omega
  | succ fuel ih =>
    rw [siftDown]
    refine (higherChild_highest r h i).bind fun child hchild => ?_
    cases child with
    | none =>
      have hnone := hchild.1 rfl
      exact .ok (ho.but.fill hi (fun c _ hlt hp => by omega) ho.parent)
    | some j =>
      have hj := hchild.2 j rfl
      have hlt := hj.lt
      have hp := hj.parent
      have hpos := hj.pos
      dsimp only
      rw [read_key hlt, ok_bind, Ranking.higher, ok_bind]
      split
      · next hup => exact ih (ho.move hi hj hup) (by simpa using hlt) (by simp; omega)
      · next hup =>
        refine .ok (ho.but.fill hi (fun c hc hclt hcp => ?_) ho.parent)
        exact Ranking.not_above_trans (hj.highest c hc hclt hcp) (by simpa using hup)

/-! The operations. Between two of them the order may change, as long as no key rises but the one that is updated. -/

/-- From one order to the next no key has risen above another, unless it is among some keys. -/
def Ranking.Rises (r r' : Ranking) (risen : Nat → Prop) : Prop :=
  ∀ a b, r'.above a b = true → r.above a b = true ∨ risen a

variable {r' : Ranking} {n : Nat} {risen : Nat → Prop}

theorem Ranking.Rises.not_above (hr : r.Rises r' risen) {a b : Nat} (ha : ¬ risen a) (h : r.above a b = false) :
    r'.above a b = false := by
  rw [Bool.eq_false_iff] at h ⊢
  exact fun h' => (hr a b h').elim h ha

/-- Keys that have not risen stay in order. -/
theorem Ordered.of_rises (ho : Ordered r h) (hr : r.Rises r' risen) (hnone : ∀ k ∈ h.keys, ¬ risen k) : Ordered r' h :=
  fun i hi hlt => hr.not_above (hnone _ (Array.mem_of_getElem? (getElem?_eq_key hlt))) (ho i hi hlt)

/-- Two places have different keys. -/
theorem Fits.key_inj (hf : h.Fits n) (hi : i < h.size) (hj : j < h.size) (hij : h.key i = h.key j) : i = j := by
  have hki := (hf.place _ i).2 (getElem?_eq_key hi)
  have hkj := (hf.place _ j).2 (getElem?_eq_key hj)
  rw [hij, hkj] at hki
  exact (Option.some.inj hki).symm

theorem insert_ordered (ho : Ordered r h) : Gives (insert r.higher k h) (Ordered r) := by
  unfold insert
  split
  · exact .ok ho
  · have hsize : (h.pushed k).size = h.size + 1 := by simp [pushed, size]
    have hkey : ∀ j, j < h.size → (h.pushed k).key j = h.key j := fun j hj => by
      have hlt : j < h.keys.size := hj
      simp [pushed, key, Array.getD_eq_getD_getElem?, Array.getElem?_push, Nat.ne_of_lt hlt]
    refine siftUp_ordered (h := h.pushed k) ⟨fun i hi hlt hne _ => ?_, fun i hi hlt hp _ => ?_, fun i hi hlt hp => ?_⟩
      (show h.size < _ by omega)
    · have hne : i ≠ h.size := hne
      rw [hkey i (by omega), hkey _ (by omega)]
      exact ho i hi (by omega)
    · have hp : (i - 1) / 2 = h.size := hp
      omega
    · have hp : (i - 1) / 2 = h.size := hp
      omega

theorem update_ordered (hf : h.Fits n) (ho : Ordered r h) (hr : r.Rises r' (· = k)) :
    Gives (update r'.higher k h) (Ordered r') := by
  unfold update
  split
  · next hnone =>
    refine .ok (ho.of_rises hr fun y hy hyk => ?_)
    have hcontains := (contains_iff hf).2 (hyk ▸ hy)
    rw [contains, hnone] at hcontains
    cases hcontains
  · next i hi =>
    have hkey := (hf.place k i).1 hi
    have hilt : i < h.size := (Array.getElem?_eq_some_iff.1 hkey).1
    have hik : h.key i = k := Option.some.inj ((getElem?_eq_key hilt).symm.trans hkey)
    have hother : ∀ j, j < h.size → j ≠ i → h.key j ≠ k := fun j hj hji hjk =>
      hji (hf.key_inj hj hilt (hjk.trans hik.symm))
    refine siftUp_ordered ⟨fun j hj hlt hji _ => ?_, fun j hj hlt hp hpos => ?_, fun j hj hlt hp => ?_⟩ hilt
    · exact hr.not_above (hother j hlt hji) (ho j hj hlt)
    · have hchild := ho j hj hlt
      rw [hp] at hchild
      exact hr.not_above (hother j hlt (by omega)) (Ranking.not_above_trans hchild (ho i hpos hilt))
    · have hchild := ho j hj hlt
      rw [hp, hik] at hchild
      exact hr.not_above (hother j hlt (by omega)) hchild

/-- The first key is taken, and the last one sinks from its place. -/
theorem pop?_ordered (ho : Ordered r h) :
    Gives (pop? r.higher h) fun p => Ordered r p.2 ∧ ∀ k, p.1 = some k → k = h.key 0 := by
  have hsize : h.size = h.keys.size := rfl
  have hpop : h.keys.pop.size = h.keys.size - 1 := Array.size_pop
  unfold pop?
  split
  · exact .ok ⟨ho, fun k hk => by cases hk⟩
  · next last hback =>
    rw [Array.back?_eq_getElem?] at hback
    have hlast := (Array.getElem?_eq_some_iff.1 hback).1
    dsimp only
    split
    · next hne =>
      have htop : h.keys.pop[0] = h.key 0 := by
        have h0 : h.keys[0]? = some h.keys.pop[0] := by simp
        exact Option.some.inj (h0.symm.trans (getElem?_eq_key (by omega)))
      have hkey : ∀ j, 0 < j → j < h.keys.size - 1 → (h.keys.pop.set 0 last hne).getD j 0 = h.key j := fun j hj hlt => by
        rw [Array.getD_eq_getD_getElem?, Array.getElem?_set_ne hne (by omega), Array.getElem?_pop, if_pos hlt]
        exact (Array.getD_eq_getD_getElem? ..).symm
      refine (siftDown_ordered ⟨fun i hi hlt _ hp => ?_, fun i _ _ _ hpos => absurd hpos (Nat.lt_irrefl 0),
        fun hpos => absurd hpos (Nat.lt_irrefl 0)⟩ ?_ ?_).bind fun rest hrest => .pure ⟨hrest, ?_⟩
      · have hlt : i < h.keys.size - 1 := by simpa [size] using hlt
        show r.above ((h.keys.pop.set 0 last hne).getD i 0) ((h.keys.pop.set 0 last hne).getD ((i - 1) / 2) 0) = false
        rw [hkey i hi hlt, hkey _ (by omega) (by omega)]
        exact ho i hi (by omega)
      · simpa [size] using hne
      · simp [size]
      · exact fun k hk => (Option.some.inj hk).symm.trans htop
    · next hne =>
      refine .ok ⟨fun i hi hlt => ?_, fun k hk => ?_⟩
      · have hlt : i < h.keys.pop.size := hlt
        omega
      · rw [show h.keys.size - 1 = 0 by omega] at hback
        have hfirst : last = h.key 0 := Option.some.inj (hback.symm.trans (getElem?_eq_key (by omega)))
        exact (Option.some.inj hk).symm.trans hfirst

theorem getD_foldl_none (ks : List Nat) (places : Array (Option Nat)) :
    (ks.foldl (fun places k => places.setIfInBounds k none) places).getD j none =
      if j ∈ ks then none else places.getD j none := by
  induction ks generalizing places with
  | nil => simp
  | cons k ks ih =>
    have hset : (places.setIfInBounds k none).getD j none = if j = k then none else places.getD j none := by
      by_cases hk : k < places.size
      · exact Table.getD_setIfInBounds hk
      · rw [Array.setIfInBounds, dif_neg hk]
        split
        · next hjk => simp [hjk, hk]
        · rfl
    rw [List.foldl_cons, ih, hset]
    by_cases hjk : j = k <;> by_cases hjks : j ∈ ks <;> simp [hjk, hjks]

/-- Clearing leaves no key, and no key a place. -/
theorem clear_fits (hf : h.Fits n) : h.clear.Fits n where
  place k i := by
    have hplaces : h.clear.places.getD k none = none := by
      rw [clear, ← Array.foldl_toList, getD_foldl_none]
      split
      · rfl
      · next hk =>
        cases hp : h.places.getD k none with
        | none => rfl
        | some i => exact absurd (Array.mem_of_getElem? ((hf.place k i).1 hp)) (by simpa using hk)
    rw [hplaces]
    simp [clear]
  lt k hk := absurd hk (Array.not_mem_empty k)

end Countermodels.Sat.Heap
