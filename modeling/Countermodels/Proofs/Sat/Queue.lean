import Countermodels.Proofs.Sat.HeapOrder

/-! Heaps at work. Operations follow one another, each with the order of the priorities as they are then; in between a
priority may rise, if the heap is told of it at once. However long this goes on, the heap holds the keys that were put in
and not yet taken out, each at one place, and what is taken is a highest one. -/

namespace Countermodels.Sat.Heap

/-- What can be asked of a heap. -/
inductive Op where
  | insert (k : Nat)
  | update (k : Nat)
  | pop
  | clear

namespace Op

/-- Do what is asked. The result comes with the key that was taken, if one was. -/
def run (higher : Higher) (h : Heap) : Op → Except Fault (Option Nat × Heap)
  | insert k => do return (none, ← h.insert higher k)
  | update k => do return (none, ← h.update higher k)
  | pop => h.pop? higher
  | clear => return (none, h.clear)

/-- What an operation does to the set of keys, given the key that it took. -/
def apply (taken : Option Nat) (keys : Finset Nat) : Op → Finset Nat
  | insert k => Insert.insert k keys
  | update _ => keys
  | pop => taken.elim keys keys.erase
  | clear => ∅

end Op

/-- An operation, with the order of the priorities as they are then. -/
structure Call where
  op : Op
  ranking : Ranking

/-- After a call with the order `r` a key may only have risen if it is the one that is updated now. -/
def Call.Follows (r : Ranking) (c : Call) : Prop := r.Rises c.ranking fun k => c.op = .update k

/-- Priorities that are raised, and of none but the key that is updated. -/
theorem Call.follows_of_raised {P : Type} [LinearOrder P] {p p' : Nat → P} {op : Op} (hup : ∀ k, p k ≤ p' k)
    (honly : ∀ k, p' k ≠ p k → op = .update k) : Call.Follows (.ofPriority p) ⟨op, .ofPriority p'⟩ := by
  intro a b hab
  have hab : p' b < p' a := of_decide_eq_true hab
  by_cases ha : p' a = p a
  · exact .inl (decide_eq_true (lt_of_le_of_lt (hup b) (ha ▸ hab)))
  · exact .inr (honly a ha)

/-- The keys that were put in and neither taken out nor cleared, by the record of what was done and what was taken. -/
def held (record : List (Op × Option Nat)) : Finset Nat := record.foldl (fun keys e => e.1.apply e.2 keys) ∅

theorem held_append (record : List (Op × Option Nat)) (op : Op) (taken : Option Nat) :
    held (record ++ [(op, taken)]) = op.apply taken (held record) := by
  rw [held, List.foldl_append]
  rfl

/-- A heap in order that holds some keys. -/
structure Holds (r : Ranking) (keys : Finset Nat) (h : Heap) : Prop where
  fits : ∃ n, h.Fits n
  ordered : Ordered r h
  mem : ∀ k, k ∈ h.keys ↔ k ∈ keys

variable {r : Ranking} {keys : Finset Nat} {h : Heap} {k n : Nat}

theorem Fits.mono (hf : h.Fits n) {m : Nat} (hm : n ≤ m) : h.Fits m :=
  ⟨hf.place, fun k hk => Nat.lt_of_lt_of_le (hf.lt k hk) hm⟩

/-- No key stands at two places. -/
theorem Fits.nodup (hf : h.Fits n) : h.keys.toList.Nodup := by
  rw [List.nodup_iff_injective_get]
  intro i j hij
  have hi : i.1 < h.size := i.2.trans_eq Array.length_toList
  have hj : j.1 < h.size := j.2.trans_eq Array.length_toList
  refine Fin.ext (hf.key_inj hi hj (Option.some.inj ?_))
  rw [← getElem?_eq_key hi, ← getElem?_eq_key hj]
  simpa [List.get_eq_getElem] using hij

theorem holds_empty (r : Ranking) : Holds r ∅ {} where
  fits := ⟨0, by simp, by simp⟩
  ordered i hi hlt := absurd hlt (Nat.not_lt_zero i)
  mem := by simp

/-- What the last call took: nothing just if there was nothing, and else a key that was there and that no other is
higher than. -/
def Taken (r : Ranking) (h h' : Heap) (taken : Option Nat) : Prop :=
  (taken = none ↔ h.keys = #[]) ∧ ∀ k, taken = some k → k ∈ h.keys ∧ ∀ y ∈ h'.keys, r.above y k = false

namespace Holds

theorem insert (hq : Holds r keys h) : Gives (h.insert r.higher k) (Holds r (Insert.insert k keys)) := by
  obtain ⟨n, hf⟩ := hq.fits
  obtain ⟨h', hrun, hf', hmem⟩ := insert_gives (k := k) (r.answers (max n (k + 1))) (hf.mono (Nat.le_max_left ..)) (by omega)
  refine ⟨h', hrun, ⟨_, hf'⟩, (insert_ordered hq.ordered).apply hrun, fun y => ?_⟩
  rw [hmem, hq.mem, Finset.mem_insert]

theorem update {r' : Ranking} (hq : Holds r keys h) (hr : r.Rises r' (· = k)) :
    Gives (h.update r'.higher k) (Holds r' keys) := by
  obtain ⟨n, hf⟩ := hq.fits
  obtain ⟨h', hrun, hf', -, hmem⟩ := update_gives (k := k) (r'.answers n) hf
  refine ⟨h', hrun, ⟨_, hf'⟩, (update_ordered hf hq.ordered hr).apply hrun, fun y => ?_⟩
  rw [hmem, hq.mem]

theorem clear (hq : Holds r keys h) : Holds r ∅ h.clear where
  fits := hq.fits.imp fun _ => clear_fits
  ordered i hi hlt := absurd hlt (Nat.not_lt_zero i)
  mem := by simp [Heap.clear]

theorem pop (hq : Holds r keys h) : Gives (h.pop? r.higher) fun p =>
    Holds r (p.1.elim keys keys.erase) p.2 ∧ Taken r h p.2 p.1 := by
  obtain ⟨n, hf⟩ := hq.fits
  obtain ⟨⟨taken, h'⟩, hrun, hp⟩ := pop?_gives (r.answers n) hf
  obtain ⟨hordered, htop⟩ := (pop?_ordered hq.ordered).apply hrun
  refine ⟨(taken, h'), hrun, ?_⟩
  cases taken with
  | none =>
    obtain ⟨hempty, rfl⟩ := hp
    exact ⟨hq, iff_of_true rfl hempty, fun k hk => by cases hk⟩
  | some k =>
    obtain ⟨hf', hk, -, hmem⟩ := hp
    obtain rfl := htop k rfl
    refine ⟨⟨⟨n, hf'⟩, hordered, fun y => ?_⟩, ?_, fun k' hk' => ?_⟩
    · rw [hmem, hq.mem]
      exact (Finset.mem_erase.trans and_comm).symm
    · exact iff_of_false (by simp) fun hempty => by simp [hempty] at hk
    · obtain rfl := Option.some.inj hk'
      refine ⟨hk, fun y hy => ?_⟩
      obtain ⟨i, hi⟩ := Array.mem_iff_getElem?.1 ((hmem y).1 hy).1
      have hlt : i < h.size := (Array.getElem?_eq_some_iff.1 hi).1
      rw [← Option.some.inj ((getElem?_eq_key hlt).symm.trans hi)]
      exact hq.ordered.top hlt

/-- One call. -/
theorem step {c : Call} (hq : Holds r keys h) (hc : c.Follows r) : Gives (c.op.run c.ranking.higher h) fun p =>
    Holds c.ranking (c.op.apply p.1 keys) p.2 ∧ (c.op = .pop → Taken c.ranking h p.2 p.1) := by
  obtain ⟨op, r'⟩ := c
  -- unless a key is updated, none has risen
  have hkept : (∀ k, op ≠ .update k) → Holds r' keys h := fun hop =>
    ⟨hq.fits, hq.ordered.of_rises hc fun k _ => hop k, hq.mem⟩
  cases op with
  | insert k => exact (hkept (by simp)).insert.bind fun h' hh' => .pure ⟨hh', by simp⟩
  | update k =>
    have hr : r.Rises r' (· = k) := fun a b hab => (hc a b hab).imp_right fun h => (Op.update.inj h).symm
    exact (hq.update hr).bind fun h' hh' => .pure ⟨hh', by simp⟩
  | pop => exact (hkept (by simp)).pop.imp fun p hp => ⟨hp.1, fun _ => hp.2⟩
  | clear => exact .pure ⟨(hkept (by simp)).clear, by simp⟩

end Holds

/-- A heap at work, with the record of what was done and what was taken. -/
structure Worked where
  record : List (Op × Option Nat) := []
  heap : Heap := {}

def Worked.call (w : Worked) (c : Call) : Except Fault Worked := do
  let (taken, heap) ← c.op.run c.ranking.higher w.heap
  return { record := w.record ++ [(c.op, taken)], heap }

/-- Calls that follow one another. -/
def Chained (calls : List Call) : Prop := calls.IsChain fun c c' => c'.Follows c.ranking

/-- Any number of calls, after which another one follows. -/
theorem holds_before {calls : List Call} {c : Call} (hchain : Chained (calls ++ [c])) :
    Gives (calls.foldlM Worked.call {}) fun w => ∃ r, Holds r (held w.record) w.heap ∧ c.Follows r := by
  induction calls using List.reverseRecOn generalizing c with
  | nil => exact .pure ⟨c.ranking, holds_empty _, fun a b hab => .inl hab⟩
  | append_singleton calls c' ih =>
    obtain ⟨hfirst, -, hnext⟩ := List.isChain_append.1 hchain
    rw [List.foldlM_append]
    refine (ih hfirst).bind fun w hw => ?_
    obtain ⟨r, hq, hfollows⟩ := hw
    have hlast : c.Follows c'.ranking := hnext c' (by simp) c (by simp)
    have hstep : Gives (w.call c') fun w' => ∃ r, Holds r (held w'.record) w'.heap ∧ c.Follows r :=
      (hq.step hfollows).bind fun p hp => .pure ⟨c'.ranking, (held_append ..).symm ▸ hp.1, hlast⟩
    exact hstep.bind fun w' hw' => .pure hw'

/-- After any calls that follow one another: keys and places are inverse, no key stands twice, no child is higher than its
parent, the keys are those that were put in and not taken out, and what is taken is a highest key. -/
theorem heap_is_a_priority_queue {calls : List Call} {c : Call} (hchain : Chained (calls ++ [c])) :
    ∃ w taken h, calls.foldlM Worked.call {} = .ok w ∧ c.op.run c.ranking.higher w.heap = .ok (taken, h) ∧
      (∀ k i : Nat, h.places.getD k none = some i ↔ h.keys[i]? = some k) ∧ h.keys.toList.Nodup ∧
      Ordered c.ranking h ∧ (∀ k, k ∈ h.keys ↔ k ∈ held (w.record ++ [(c.op, taken)])) ∧
      (c.op = .pop → Taken c.ranking w.heap h taken) := by
  obtain ⟨w, hw, r, hq, hfollows⟩ := holds_before hchain
  obtain ⟨⟨taken, h⟩, hrun, hholds, htaken⟩ := hq.step hfollows
  obtain ⟨n, hf⟩ := hholds.fits
  refine ⟨w, taken, h, hw, hrun, hf.place, hf.nodup, hholds.ordered, fun k => ?_, htaken⟩
  rw [held_append, hholds.mem]

/-- All keys have the same priority but the first one, which has its own. -/
def firstRanked (priority : Nat) : Ranking := .ofPriority fun k => if k = 0 then priority else 2

/-- Three keys, of which the first is the lowest until it is raised; then a highest one is taken. -/
def raisedLate : List Call :=
  [⟨.insert 0, firstRanked 1⟩, ⟨.insert 1, firstRanked 1⟩, ⟨.insert 2, firstRanked 1⟩, ⟨.update 0, firstRanked 9⟩]

theorem chained_raisedLate : Chained (raisedLate ++ [⟨.pop, firstRanked 9⟩]) := by
  have hsame : ∀ op : Op, ∀ priority, Call.Follows (firstRanked priority) ⟨op, firstRanked priority⟩ := fun op priority =>
    Call.follows_of_raised (fun _ => le_refl _) fun _ hne => absurd rfl hne
  have hraised : Call.Follows (firstRanked 1) ⟨.update 0, firstRanked 9⟩ := by
    refine Call.follows_of_raised (fun k => ?_) fun k hne => ?_
    · split <;> decide
    · by_cases hk : k = 0
      · rw [hk]
      · simp [hk] at hne
  simp [Chained, raisedLate, hsame, hraised]

theorem heap_is_a_priority_queue_raisedLate :
    Chained (raisedLate ++ [⟨.pop, firstRanked 9⟩]) ∧
    ∃ w taken h, raisedLate.foldlM Worked.call {} = .ok w ∧ Op.pop.run (firstRanked 9).higher w.heap = .ok (taken, h) ∧
      Ordered (firstRanked 9) h ∧ (∀ k, k ∈ h.keys ↔ k ∈ held (w.record ++ [(.pop, taken)])) ∧
      Taken (firstRanked 9) w.heap h taken := by
  obtain ⟨w, taken, h, hw, hrun, -, -, hordered, hmem, htaken⟩ := heap_is_a_priority_queue chained_raisedLate
  exact ⟨chained_raisedLate, w, taken, h, hw, hrun, hordered, hmem, htaken rfl⟩

end Countermodels.Sat.Heap
