import Countermodels.Proofs.Sat.Heap
import Countermodels.Sat.VarOrder

/-! The branching order as a set of variables. Activities decide which variable comes first, and raising
or scaling them moves variables about; what is kept here is that no free variable is lost. -/

namespace Countermodels.Sat.VarOrder

/-- The order knows the first `n` variables. -/
structure Valid (n : Nat) (o : VarOrder) : Prop where
  size : o.activity.size = n
  fits : o.heap.Fits n

/-- The order holds a variable. -/
def Has (o : VarOrder) (v : Nat) : Prop := v ∈ o.heap.keys

variable {n v : Nat} {o : VarOrder}

theorem answers {activity : Array Float} (h : activity.size = n) : Heap.Answers n (higher activity) :=
  fun a ha b hb => by
    rw [higher, Table.read_of_lt (h ▸ ha), ok_bind, Table.read_of_lt (h ▸ hb), ok_bind]
    exact .pure trivial

theorem insert_gives (h : o.Valid n) (hv : v < n) :
    Gives (o.insert v) fun o' => o'.Valid n ∧ ∀ u, o'.Has u ↔ u = v ∨ o.Has u :=
  (Heap.insert_gives (answers h.size) h.fits hv).bind fun _ hh => .pure ⟨⟨h.size, hh.1⟩, hh.2⟩

theorem declare_gives (h : o.Valid n) :
    Gives (o.declare n) fun o' => o'.Valid (n + 1) ∧ ∀ u, o'.Has u ↔ u = n ∨ o.Has u := by
  refine insert_gives (o := { o with activity := Table.grow o.activity (n + 1) 0.0 }) ⟨?_, ?_⟩ (Nat.lt_succ_self n)
  · simp [h.size]
  · exact ⟨h.fits.place, fun k hk => Nat.lt_succ_of_lt (h.fits.lt k hk)⟩

theorem bump_gives (h : o.Valid n) (hv : v < n) :
    Gives (o.bump v) fun o' => o'.Valid n ∧ ∀ u, o'.Has u ↔ o.Has u := by
  unfold bump
  rw [Table.read_of_lt (h.size ▸ hv), ok_bind]
  dsimp only
  -- whether the activities are scaled or not, the table keeps its size and the heap its keys
  have key : ∀ activity : Array Float, activity.size = n → ∀ step : Float,
      Gives (do return { o with activity, step, heap := ← o.heap.update (higher activity) v })
        fun o' => o'.Valid n ∧ ∀ u, o'.Has u ↔ o.Has u := fun activity ha step =>
    (Heap.update_gives (answers ha) h.fits).bind fun _ hh => .pure ⟨⟨ha, hh.1⟩, hh.2.2⟩
  split
  · exact key _ (by simp [h.size]) _
  · exact key _ (by simp [h.size]) _

/-- If no variable is picked then none of the order is free; otherwise one is, and only variables with
a value were lost besides. -/
def Picked (n : Nat) (values : Array Value) (o : VarOrder) : Option Nat × VarOrder → Prop
  | (none, o') => o'.Valid n ∧ ∀ u, o.Has u → values[u]? ≠ some .free
  | (some v, o') => o'.Valid n ∧ v < n ∧ values[v]? = some .free ∧
      ∀ u, o.Has u → values[u]? = some .free → u = v ∨ o'.Has u

theorem pickWithin_gives {values : Array Value} {fuel : Nat} (h : o.Valid n) (hvalues : values.size = n)
    (hfuel : o.heap.size ≤ fuel) : Gives (o.pickWithin values fuel) (Picked n values o) := by
  induction fuel generalizing o with
  | zero =>
    refine .ok ⟨h, fun u hu => ?_⟩
    have := Array.size_pos_of_mem hu
    have : o.heap.keys.size ≤ 0 := hfuel
    omega
  | succ fuel ih =>
    rw [pickWithin]
    refine (Heap.pop?_gives (answers h.size) h.fits).bind fun r hr => ?_
    obtain ⟨top, heap⟩ := r
    cases top with
    | none =>
      obtain ⟨hempty, rfl⟩ := hr
      refine .pure ⟨h, fun u hu => ?_⟩
      rw [Has, hempty] at hu
      exact absurd hu (Array.not_mem_empty u)
    | some v =>
      obtain ⟨hfits, hv, hsize, hmem⟩ := hr
      have hvn : v < values.size := hvalues ▸ h.fits.lt v hv
      have hread : values[v]? = some values[v] := Array.getElem?_eq_getElem hvn
      dsimp only
      rw [Table.read_of_lt hvn, ok_bind]
      split
      · next hfree =>
        refine .pure ⟨⟨h.size, hfits⟩, hvalues ▸ hvn, hfree ▸ hread, fun u hu _ => ?_⟩
        by_cases huv : u = v
        · exact .inl huv
        · exact .inr ((hmem u).2 ⟨hu, huv⟩)
      · next hfree =>
        have hlost : ∀ u, o.Has u → values[u]? = some .free → u ∈ heap.keys := fun u hu hufree => by
          refine (hmem u).2 ⟨hu, fun huv => hfree ?_⟩
          rw [huv, hread] at hufree
          exact Option.some.inj hufree
        have hsize' : heap.keys.size ≤ fuel := by
          have : o.heap.keys.size ≤ fuel + 1 := hfuel
          omega
        refine (ih (o := { o with heap }) ⟨h.size, hfits⟩ hsize').imp fun r hr => ?_
        obtain ⟨picked, o'⟩ := r
        cases picked with
        | none =>
          obtain ⟨hv', hnone⟩ := hr
          exact ⟨hv', fun u hu hufree => hnone u (hlost u hu hufree) hufree⟩
        | some w =>
          obtain ⟨hv', hw, hwfree, hrest⟩ := hr
          exact ⟨hv', hw, hwfree, fun u hu hufree => hrest u (hlost u hu hufree) hufree⟩

theorem pick_gives {values : Array Value} (h : o.Valid n) (hvalues : values.size = n) :
    Gives (o.pick values) (Picked n values o) := pickWithin_gives h hvalues (Nat.le_refl _)

end Countermodels.Sat.VarOrder
