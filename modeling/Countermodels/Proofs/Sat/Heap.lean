import Countermodels.Proofs.Gives
import Countermodels.Sat.Heap

/-! The heap as a set of keys. The tables of keys and of places are inverse to each other, and sifting
only moves keys: insertion adds a key, taking the highest removes it, and nothing else changes the
set. None of this depends on the order, which only has to answer. -/

namespace Countermodels.Sat.Heap

/-- Keys and places are inverse, and all keys are below `n`. -/
structure Fits (n : Nat) (h : Heap) : Prop where
  place : ∀ k i : Nat, h.places.getD k none = some i ↔ h.keys[i]? = some k
  lt : ∀ k ∈ h.keys, k < n

/-- An order that answers for all keys below `n`. -/
def Answers (n : Nat) (higher : Higher) : Prop := ∀ a < n, ∀ b < n, Gives (higher a b) fun _ => True

variable {higher : Higher} {n x i j k : Nat} {h : Heap}

theorem contains_iff (hf : h.Fits n) : h.contains k = true ↔ k ∈ h.keys := by
  rw [contains, Option.isSome_iff_exists, Array.mem_iff_getElem?]
  exact exists_congr fun i => hf.place k i

@[simp] theorem size_keys_put : (h.put i k).keys.size = h.keys.size := by simp [put]

theorem getElem?_put (hi : i < h.keys.size) : (h.put i k).keys[j]? = if j = i then some k else h.keys[j]? := by
  rw [put, Array.getElem?_setIfInBounds]
  by_cases hj : j = i
  · subst hj
    simp [hi]
  · rw [if_neg (Ne.symm hj), if_neg hj]

theorem places_put (hk : k < h.places.size) :
    (h.put i k).places.getD j none = if j = k then some i else h.places.getD j none := by
  rw [put, Table.getD_setIfInBounds hk]

theorem lt_places (hk : h.places.getD k none = some i) : k < h.places.size := by
  by_contra hlt
  rw [Array.getD_eq_getD_getElem?, Array.getElem?_eq_none (by omega)] at hk
  cases hk

namespace Fits

/-- The key at a place has an entry in the table of places. -/
theorem known (hf : (h.put i x).Fits n) (hi : i < h.keys.size) : x < h.places.size ∧ x < n := by
  have hx : (h.put i x).keys[i]? = some x := by rw [getElem?_put hi, if_pos rfl]
  refine ⟨?_, hf.lt x (Array.mem_of_getElem? hx)⟩
  simpa [put] using lt_places ((hf.place x i).2 hx)

/-- The hole at `i`, to be filled by `x`, moves to `j`. -/
theorem move (hf : (h.put i x).Fits n) (hi : i < h.keys.size) (hj : h.keys[j]? = some k) (hij : j ≠ i) :
    ((h.put i k).put j x).Fits n ∧ ∀ y, y ∈ ((h.put i k).put j x).keys ↔ y ∈ (h.put i x).keys := by
  have hjlt : j < h.keys.size := (Array.getElem?_eq_some_iff.1 hj).1
  obtain ⟨hx, hxn⟩ := hf.known hi
  have hkey : ∀ a : Nat, ((h.put i k).put j x).keys[a]? =
      if a = j then some x else if a = i then some k else h.keys[a]? := fun a => by
    rw [getElem?_put (by simpa using hjlt), getElem?_put hi]
  have hplace := hf.place
  simp only [getElem?_put hi, places_put hx] at hplace
  have hkx : k ≠ x := fun hkx => by
    have h1 := (hplace k j).2 (by rw [if_neg hij]; exact hj)
    rw [if_pos hkx] at h1
    exact hij (Option.some.inj h1).symm
  have hkj := (hplace k j).2 (by rw [if_neg hij]; exact hj)
  rw [if_neg hkx] at hkj
  have hkp : k < h.places.size := lt_places hkj
  have hmem : ∀ y, y ∈ ((h.put i k).put j x).keys ↔ y ∈ (h.put i x).keys := fun y => by
    simp only [Array.mem_iff_getElem?, hkey, getElem?_put hi]
    constructor
    · rintro ⟨a, ha⟩
      split at ha
      · exact ⟨i, by simpa using ha⟩
      · split at ha
        · exact ⟨j, by rw [if_neg hij, hj, ha]⟩
        · next h1 h2 => exact ⟨a, by rw [if_neg h2, ha]⟩
    · rintro ⟨a, ha⟩
      split at ha
      · exact ⟨j, by simpa using ha⟩
      · next h2 =>
        by_cases h1 : a = j
        · exact ⟨i, by rw [if_neg (Ne.symm hij), if_pos rfl, ← hj, ← h1, ha]⟩
        · exact ⟨a, by rw [if_neg h1, if_neg h2, ha]⟩
  refine ⟨⟨fun y a => ?_, fun y hy => hf.lt y ((hmem y).1 hy)⟩, hmem⟩
  rw [hkey, places_put (by simpa [put] using hx), places_put hkp]
  have := hplace y a
  grind

end Fits

/-- A heap with the keys of another, well placed. -/
def Settles (n : Nat) (h h' : Heap) : Prop :=
  h'.Fits n ∧ h'.keys.size = h.keys.size ∧ ∀ k, k ∈ h'.keys ↔ k ∈ h.keys

theorem siftUp_gives (ho : Answers n higher) (hf : (h.put i x).Fits n) (hi : i < h.keys.size) :
    Gives (siftUp higher x i h) (Settles n (h.put i x)) := by
  induction i using Nat.strongRecOn generalizing h with
  | _ i ih =>
    rw [siftUp]
    split
    · next h0 => exact .ok (h0 ▸ ⟨hf, rfl, fun _ => Iff.rfl⟩)
    · next h0 =>
      have hlt : (i - 1) / 2 < h.keys.size := by omega
      have hkey : h.keys[(i - 1) / 2]? = some h.keys[(i - 1) / 2] := Array.getElem?_eq_getElem hlt
      obtain ⟨hmoved, hmem⟩ := hf.move hi hkey (by omega)
      have hk : h.keys[(i - 1) / 2] < n := hf.lt _ (Array.mem_of_getElem? (i := (i - 1) / 2)
        (by rw [getElem?_put hi, if_neg (by omega), hkey]))
      dsimp only
      rw [Table.read_of_lt hlt, ok_bind]
      refine (ho _ (hf.known hi).2 _ hk).bind fun up _ => ?_
      split
      · refine (ih _ (by omega) hmoved (by simpa using hlt)).imp fun h' hh' => ⟨hh'.1, ?_, fun k => ?_⟩
        · simpa using hh'.2.1
        · rw [hh'.2.2, hmem]
      · exact .ok ⟨hf, rfl, fun _ => Iff.rfl⟩

/-- A child of a place lies after it, inside the heap. -/
theorem higherChild_gives (ho : Answers n higher) (hlt : ∀ j k : Nat, j ≠ i → h.keys[j]? = some k → k < n) :
    Gives (higherChild higher i h) fun c => ∀ j, c = some j → i < j ∧ j < h.keys.size := by
  unfold higherChild
  dsimp only
  split
  · next hl =>
    split
    · next hr =>
      rw [Table.read_of_lt hr, ok_bind, Table.read_of_lt hl, ok_bind]
      refine (ho _ (hlt _ _ (by omega) (Array.getElem?_eq_getElem hr)) _
        (hlt _ _ (by omega) (Array.getElem?_eq_getElem hl))).bind fun right _ => ?_
      cases right with
      | true => exact .pure fun j hj => by cases hj; omega
      | false => exact .pure fun j hj => by cases hj; omega
    · exact .pure fun j hj => by cases hj; omega
  · exact .pure fun j hj => by cases hj

theorem siftDown_gives {fuel : Nat} (ho : Answers n higher) (hf : (h.put i x).Fits n) (hi : i < h.keys.size)
    (hfuel : h.keys.size ≤ i + fuel) : Gives (siftDown higher x fuel i h) (Settles n (h.put i x)) := by
  induction fuel generalizing i h with
  | zero => omega
  | succ fuel ih =>
    have hlt : ∀ j k : Nat, j ≠ i → h.keys[j]? = some k → k < n := fun j k hj hk =>
      hf.lt k (Array.mem_of_getElem? (i := j) (by rw [getElem?_put hi, if_neg hj, hk]))
    rw [siftDown]
    refine (higherChild_gives ho hlt).bind fun child hchild => ?_
    cases child with
    | none => exact .ok ⟨hf, rfl, fun _ => Iff.rfl⟩
    | some j =>
      obtain ⟨hij, hj⟩ := hchild j rfl
      have hkey : h.keys[j]? = some h.keys[j] := Array.getElem?_eq_getElem hj
      obtain ⟨hmoved, hmem⟩ := hf.move hi hkey (by omega)
      dsimp only
      rw [Table.read_of_lt hj, ok_bind]
      refine (ho _ (hlt j _ (by omega) hkey) _ (hf.known hi).2).bind fun down _ => ?_
      split
      · refine (ih hmoved (by simpa using hj) (by simp; omega)).imp fun h' hh' => ⟨hh'.1, ?_, fun k => ?_⟩
        · simpa using hh'.2.1
        · rw [hh'.2.2, hmem]
      · exact .ok ⟨hf, rfl, fun _ => Iff.rfl⟩

/-- Putting a key where it stands changes nothing. -/
theorem put_self (hf : h.Fits n) (hk : h.keys[i]? = some k) : h.put i k = h := by
  have hplace : h.places[k]? = some (some i) := by
    have hi := (hf.place k i).2 hk
    rw [Array.getElem?_eq_getElem (lt_places hi), ← hi, Array.getD_eq_getD_getElem?,
      Array.getElem?_eq_getElem (lt_places hi)]
    rfl
  obtain ⟨hi, hik⟩ := Array.getElem?_eq_some_iff.1 hk
  obtain ⟨hp, hpk⟩ := Array.getElem?_eq_some_iff.1 hplace
  have hkeys : h.keys.setIfInBounds i k = h.keys := by
    rw [Array.setIfInBounds, dif_pos hi, ← hik, Array.set_getElem_self]
  have hplaces : h.places.setIfInBounds k (some i) = h.places := by
    rw [Array.setIfInBounds, dif_pos hp, ← hpk, Array.set_getElem_self]
  rw [put, hkeys, hplaces]

/-- A heap with one more key at its end. -/
def pushed (h : Heap) (k : Nat) : Heap where
  keys := h.keys.push k
  places := (Table.grow h.places (k + 1) none).setIfInBounds k (some h.keys.size)

theorem Fits.pushed (hf : h.Fits n) (hk : k < n) (hmem : k ∉ h.keys) : (h.pushed k).Fits n where
  place y i := by
    have hgrown : k < (Table.grow h.places (k + 1) none).size := by
      rw [Table.size_grow]
      omega
    have hlast : h.keys[h.keys.size]? = none := Array.getElem?_eq_none (Nat.le_refl _)
    have hnot : h.keys[i]? ≠ some k := fun hi => hmem (Array.mem_of_getElem? hi)
    rw [Heap.pushed, Array.getElem?_push, Table.getD_setIfInBounds hgrown, Table.getD_grow]
    have := hf.place y i
    grind
  lt y hy := (Array.mem_push.1 hy).elim (hf.lt y) fun h => h ▸ hk

theorem insert_gives (ho : Answers n higher) (hf : h.Fits n) (hk : k < n) :
    Gives (insert higher k h) fun h' => h'.Fits n ∧ ∀ y, y ∈ h'.keys ↔ y = k ∨ y ∈ h.keys := by
  unfold insert
  split
  · next hc =>
    have hmem := (contains_iff hf).1 hc
    exact .ok ⟨hf, fun y => ⟨.inr, fun hy => hy.elim (fun h => h ▸ hmem) id⟩⟩
  · next hc =>
    have hp := hf.pushed hk fun hk => hc ((contains_iff hf).2 hk)
    have hself : (h.pushed k).put h.keys.size k = h.pushed k := put_self hp (by simp [pushed])
    have hsift := siftUp_gives (h := h.pushed k) (i := h.keys.size) (x := k) ho (hself.symm ▸ hp)
      (by simp [pushed])
    refine hsift.imp fun h' hh' => ⟨hh'.1, fun y => ?_⟩
    rw [hh'.2.2, hself, pushed, Array.mem_push, or_comm]

theorem update_gives (ho : Answers n higher) (hf : h.Fits n) :
    Gives (update higher k h) (Settles n h) := by
  unfold update
  split
  · exact .ok ⟨hf, rfl, fun _ => Iff.rfl⟩
  · next i hi =>
    have hkey := (hf.place k i).1 hi
    have hself := put_self hf hkey
    have hsift := siftUp_gives (h := h) (i := i) (x := k) ho (hself.symm ▸ hf)
      (Array.getElem?_eq_some_iff.1 hkey).1
    rwa [hself] at hsift

/-- A heap whose last key takes the place of its first. -/
def beheaded (h : Heap) (top last : Nat) : Heap where
  keys := h.keys.pop.setIfInBounds 0 last
  places := (h.places.setIfInBounds top none).setIfInBounds last (some 0)

theorem Fits.beheaded {top last : Nat} (hf : h.Fits n) (htop : h.keys[0]? = some top)
    (hlast : h.keys[h.keys.size - 1]? = some last) (hsize : 1 < h.keys.size) :
    (h.beheaded top last).Fits n ∧ ∀ y, y ∈ (h.beheaded top last).keys ↔ y ∈ h.keys ∧ y ≠ top := by
  have hinj : ∀ i j y : Nat, h.keys[i]? = some y → h.keys[j]? = some y → i = j := fun i j y hi hj =>
    Option.some.inj (((hf.place y i).2 hi).symm.trans ((hf.place y j).2 hj))
  have hne : top ≠ last := fun he => by
    have := hinj 0 _ _ (he ▸ htop) hlast
    omega
  have hkeys : ∀ j : Nat, (h.beheaded top last).keys[j]? =
      if j = 0 then some last else if j + 1 < h.keys.size then h.keys[j]? else none := fun j => by
    rw [Heap.beheaded, Array.getElem?_setIfInBounds, Array.size_pop, Array.getElem?_pop]
    grind
  have hmem : ∀ y, y ∈ (h.beheaded top last).keys ↔ y ∈ h.keys ∧ y ≠ top := fun y => by
    simp only [Array.mem_iff_getElem?, hkeys]
    constructor
    · rintro ⟨j, hj⟩
      split at hj
      · obtain rfl := Option.some.inj hj
        exact ⟨⟨_, hlast⟩, hne.symm⟩
      · next h0 =>
        split at hj
        · exact ⟨⟨j, hj⟩, fun he => h0 (hinj j 0 top (he ▸ hj) htop)⟩
        · cases hj
    · rintro ⟨⟨j, hj⟩, hy⟩
      have hjlt := (Array.getElem?_eq_some_iff.1 hj).1
      by_cases hjl : j = h.keys.size - 1
      · exact ⟨0, by rw [if_pos rfl, ← hlast, ← hj, hjl]⟩
      · have h0 : j ≠ 0 := fun h0 => hy (Option.some.inj (hj.symm.trans (h0 ▸ htop)))
        exact ⟨j, by rw [if_neg h0, if_pos (by omega), hj]⟩
  refine ⟨⟨fun y a => ?_, fun y hy => hf.lt y ((hmem y).1 hy).1⟩, hmem⟩
  rw [hkeys, Heap.beheaded, Table.getD_setIfInBounds (by simpa using lt_places ((hf.place ..).2 hlast)),
    Table.getD_setIfInBounds (lt_places ((hf.place ..).2 htop))]
  have hy := hf.place y a
  have h1 := hinj a 0 y
  have h2 := hinj a (h.keys.size - 1) y
  have h3 : h.keys[a]? = some y → a < h.keys.size := fun h => (Array.getElem?_eq_some_iff.1 h).1
  grind

/-- Taking the highest key removes it. -/
theorem pop?_gives (ho : Answers n higher) (hf : h.Fits n) :
    Gives (pop? higher h) fun r => match r with
      | (none, h') => h.keys = #[] ∧ h' = h
      | (some k, h') => h'.Fits n ∧ k ∈ h.keys ∧ h'.keys.size + 1 = h.keys.size ∧
          ∀ y, y ∈ h'.keys ↔ y ∈ h.keys ∧ y ≠ k := by
  unfold pop?
  split
  · next hb => exact .ok ⟨Array.back?_eq_none_iff.1 hb, rfl⟩
  · next last hb =>
    rw [Array.back?_eq_getElem?] at hb
    dsimp only
    split
    · next hne =>
      have hsize : 1 < h.keys.size := by simp at hne; omega
      have htop : h.keys[0]? = some h.keys.pop[0] := by simp
      obtain ⟨hfits, hmem⟩ := hf.beheaded htop hb hsize
      have heq : (⟨h.keys.pop.set 0 last hne, (h.places.setIfInBounds h.keys.pop[0] none).setIfInBounds last
          (some 0)⟩ : Heap) = h.beheaded h.keys.pop[0] last := by
        rw [beheaded, show h.keys.pop.setIfInBounds 0 last = h.keys.pop.set 0 last hne from dif_pos hne]
      have hself : (h.beheaded h.keys.pop[0] last).put 0 last = h.beheaded h.keys.pop[0] last :=
        put_self hfits (by rw [beheaded, Array.getElem?_setIfInBounds_self_of_lt hne])
      rw [heq]
      have hsift : Gives (siftDown higher last h.keys.pop.size 0 (h.beheaded h.keys.pop[0] last)) _ :=
        siftDown_gives ho (hself.symm ▸ hfits) (by simp [beheaded]; omega) (by simp [beheaded])
      refine hsift.bind fun h' hh' => .pure ⟨hh'.1, Array.mem_of_getElem? htop, ?_, fun y => ?_⟩
      · rw [hh'.2.1, hself]
        simp only [beheaded, Array.size_setIfInBounds, Array.size_pop]
        omega
      · rw [hh'.2.2, hself, hmem]
    · next hne =>
      have hsize : h.keys.size = 1 := by
        have := (Array.getElem?_eq_some_iff.1 hb).1
        simp at hne
        omega
      have hpop : h.keys.pop = #[] := Array.eq_empty_of_size_eq_zero (by simp [hsize])
      have hone : ∀ j y : Nat, h.keys[j]? = some y → y = last := fun j y hj => by
        have hjlt := (Array.getElem?_eq_some_iff.1 hj).1
        rw [show j = h.keys.size - 1 by omega, hb] at hj
        exact (Option.some.inj hj).symm
      rw [hpop]
      refine .ok ⟨⟨fun y i => ?_, by simp⟩, Array.mem_of_getElem? hb, by simp [hsize], fun y => ?_⟩
      · rw [Table.getD_setIfInBounds (lt_places ((hf.place ..).2 hb))]
        have := hf.place y i
        have := hone i y
        grind
      · refine ⟨fun hy => absurd hy (Array.not_mem_empty y), ?_⟩
        rintro ⟨hy, hne⟩
        obtain ⟨j, hj⟩ := Array.mem_iff_getElem?.1 hy
        exact absurd (hone j y hj) hne

end Countermodels.Sat.Heap
