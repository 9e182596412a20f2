import Countermodels.Proofs.Sat.Guided

/-! Why a round of the search ends. The places where the levels of a trail end, written as a word, rise in
the lexicographic order with every step. Levels of decisions are not empty, so the letters of the word rise as well,
and it can be read as a number below a power of two that is known when the round starts. -/

namespace Countermodels.Sat

/-- The place of a rising word, with letters from `low` on and below `n`, among all such words. -/
def riseRank (n : Nat) : Nat → List Nat → Nat
  | _, [] => 0
  | low, d :: ds => 1 + (2 ^ (n - low) - 2 ^ (n - d)) + riseRank n (d + 1) ds

/-- The letters of a word rise, from `low` on and below `n`. -/
structure Rises (n low : Nat) (ds : List Nat) : Prop where
  sorted : ds.Pairwise (· < ·)
  le : ∀ d ∈ ds, low ≤ d
  lt : ∀ d ∈ ds, d < n

namespace Rises

variable {n low d : Nat} {ds es : List Nat}

theorem tail (h : Rises n low (d :: ds)) : Rises n (d + 1) ds where
  sorted := (List.pairwise_cons.1 h.sorted).2
  le := (List.pairwise_cons.1 h.sorted).1
  lt e he := h.lt e (List.mem_cons_of_mem _ he)

theorem pow_head (h : Rises n low (d :: ds)) : 2 ^ (n - d) = 2 * 2 ^ (n - (d + 1)) ∧ 2 ^ (n - d) ≤ 2 ^ (n - low) := by
  have hd := h.lt d List.mem_cons_self
  have hlow := h.le d List.mem_cons_self
  constructor
  · rw [← Nat.pow_succ']
    congr 1
    omega
  · exact Nat.pow_le_pow_right Nat.two_pos (by omega)

theorem rank_lt (h : Rises n low ds) : riseRank n low ds < 2 ^ (n - low) := by
  induction ds generalizing low with
  | nil => exact Nat.two_pow_pos _
  | cons d ds ih =>
    have hrest := ih h.tail
    obtain ⟨hhalf, hle⟩ := h.pow_head
    rw [riseRank]
    omega

/-- Words rise in the lexicographic order with their places. -/
theorem rank_lt_rank (h : Rises n low ds) (h' : Rises n low es) (hlex : List.Lex (· < ·) ds es) :
    riseRank n low ds < riseRank n low es := by
  induction hlex generalizing low with
  | nil =>
    rw [riseRank, riseRank]
    omega
  | cons _ ih => exact Nat.add_lt_add_left (ih h.tail h'.tail) _
  | @rel d ds e es hde =>
    have hrest := h.tail.rank_lt
    obtain ⟨hhalf, hle⟩ := h.pow_head
    have hpow : 2 ^ (n - e) ≤ 2 ^ (n - (d + 1)) := Nat.pow_le_pow_right Nat.two_pos (by omega)
    rw [riseRank, riseRank]
    omega

end Rises

/-- Words keep their order when something is added to their letters, the same in the same places. -/
theorem lex_mapIdx_add (c : Nat → Nat) {ds es : List Nat} (h : List.Lex (· < ·) ds es) :
    List.Lex (· < ·) (ds.mapIdx fun k d => d + c k) (es.mapIdx fun k e => e + c k) := by
  induction h generalizing c with
  | nil =>
    rw [List.mapIdx_nil, List.mapIdx_cons]
    exact .nil
  | cons _ ih =>
    rw [List.mapIdx_cons, List.mapIdx_cons]
    exact .cons (ih fun k => c (k + 1))
  | rel hlt =>
    rw [List.mapIdx_cons, List.mapIdx_cons]
    exact .rel (Nat.add_lt_add_right hlt _)

theorem Solver.pow_le_roundBound (vars assumptions : Nat) :
    (vars + 2) ^ (vars + assumptions + 1) ≤ roundBound vars assumptions := by
  rw [roundBound, Nat.one_shiftLeft, Nat.pow_mul]
  exact Nat.pow_le_pow_left (Nat.le_of_lt Nat.lt_log2_self) _

namespace Trail

/-- The places where the levels end, from the root level on. -/
def ends (t : Trail) : List Nat := t.marks.toList ++ [t.lits.size]

/-- The levels of one trail end before those of the other do. -/
def Before (t t' : Trail) : Prop := List.Lex (· < ·) t.ends t'.ends

variable {t t' t'' : Trail} {l : Lit} {r : Option Nat} {level start : Nat} {A : List Lit}

theorem Before.trans (h : t.Before t') (h' : t'.Before t'') : t.Before t'' := List.lt_trans h h'

theorem before_pushed : t.Before (t.pushed l r) := by
  refine List.Lex.append_left _ (List.Lex.rel ?_) t.marks.toList
  rw [Trail.pushed, Array.size_push]
  exact Nat.lt_succ_self _

theorem before_openLevel : t.Before t.openLevel := by
  have hends : t.openLevel.ends = t.ends ++ [t.lits.size] := by simp [ends, Trail.openLevel]
  have := List.Lex.append_left (· < ·) (List.Lex.nil (a := t.lits.size) (l := [])) t.ends
  rwa [List.append_nil, ← hends] at this

/-- A literal that joins a lower level makes up for the levels that were undone. -/
theorem before_cutAt_pushed (ht : t.Valid) (h : t.marks[level]? = some start) :
    t.Before ((t.cutAt level start).pushed l r) := by
  have hlt : level < t.marks.toList.length := by
    rw [Array.length_toList]
    exact (Array.getElem?_eq_some_iff.1 h).1
  have hstart : t.marks.toList[level] = start := by simpa using (Array.getElem?_eq_some_iff.1 h).2
  have hsize : ((t.cutAt level start).pushed l r).lits.size = start + 1 := by
    have := Nat.le_trans (ht.marks_le start (Array.mem_of_getElem? h)) ht.head_le
    rw [Trail.pushed, Array.size_push, ← Array.length_toList, toList_lits_cutAt, List.length_take, Array.length_toList]
    omega
  have hmarks : ((t.cutAt level start).pushed l r).marks.toList = t.marks.toList.take level := by
    simp [Trail.pushed, Trail.cutAt]
  have hold : t.ends = t.marks.toList.take level ++ start :: (t.marks.toList.drop (level + 1) ++ [t.lits.size]) := by
    rw [ends, ← List.cons_append, ← hstart, ← List.append_assoc, ← List.drop_eq_getElem_cons hlt,
      List.take_append_drop]
  rw [Before, hold, ends, hmarks, hsize]
  exact List.Lex.append_left _ (List.Lex.rel (Nat.lt_succ_self start)) _

theorem Before.of_grown {b b' : Board} (hg : Grown b b') (h : b'.trail.Before t) : b.trail.Before t := by
  have hle := hg.lits.length_le
  rw [Array.length_toList, Array.length_toList] at hle
  rcases Nat.lt_or_eq_of_le hle with hlt | heq
  · refine Before.trans ?_ h
    rw [Before, ends, ends, hg.marks]
    exact List.Lex.append_left _ (List.Lex.rel hlt) _
  · rwa [Before, ends, ← hg.marks, heq]

/-- The ends of the levels, where the level of an assumption counts as if it held one literal more. -/
def heights (assumptions : Nat) (t : Trail) : List Nat := t.ends.mapIdx fun k d => d + min k assumptions

/-- The place of a trail among those that a search under a number of assumptions can reach. -/
def progress (assumptions : Nat) (t : Trail) : Nat :=
  riseRank (t.values.size + assumptions + 1) 0 (t.heights assumptions)

theorem Valid.ends_sorted (ht : t.Valid) : t.ends.Pairwise (· ≤ ·) := by
  refine List.pairwise_append.2 ⟨ht.marks_sorted, List.pairwise_singleton .., fun m hm n hn => ?_⟩
  rw [List.mem_singleton.1 hn]
  exact Nat.le_trans (ht.marks_le m (Array.mem_toList_iff.1 hm)) ht.head_le

theorem Valid.ends_le (ht : t.Valid) : ∀ d ∈ t.ends, d ≤ t.values.size := fun d hd => by
  have hle := ht.size_le
  rcases List.mem_append.1 hd with hd | hd
  · have := Nat.le_trans (ht.marks_le d (Array.mem_toList_iff.1 hd)) ht.head_le
    omega
  · rw [List.mem_singleton.1 hd]
    omega

/-- Levels above those of the assumptions are not empty. -/
theorem Valid.end_lt_end (ht : t.Valid) (hg : Guided A t) {i j : Nat} (hi : i < t.ends.length) (hj : j < t.ends.length)
    (hA : A.length ≤ i) (hij : i < j) : t.ends[i] < t.ends[j] := by
  have hlen : t.ends.length = t.marks.size + 1 := by simp [ends]
  have hend : ∀ (k : Nat) (hk : k < t.ends.length) (hk' : k < t.marks.size), t.ends[k] = t.marks[k] := fun k _ hk' => by
    simp [ends, List.getElem_append_left, hk']
  obtain ⟨hsize, hlevel⟩ := hg.opened i t.marks[i] hA (Array.getElem?_eq_getElem (by omega))
  rw [hend i hi (by omega)]
  by_cases hlast : j < t.marks.size
  · rw [hend j hj hlast]
    -- two levels that start at one place would be the same level
    refine Nat.lt_of_le_of_ne ?_ fun heq => ?_
    · have hsorted := List.pairwise_iff_getElem.1 ht.ends_sorted i j hi hj hij
      rwa [hend i hi (by omega), hend j hj hlast] at hsorted
    · have hother := (hg.opened j t.marks[j] (by omega) (Array.getElem?_eq_getElem hlast)).2
      rw [← heq, hlevel] at hother
      omega
  · obtain rfl : j = t.marks.size := by omega
    simpa [ends] using hsize

theorem Valid.rises (ht : t.Valid) (hg : Guided A t) :
    Rises (t.values.size + A.length + 1) 0 (t.heights A.length) where
  sorted := by
    refine List.pairwise_iff_getElem.2 fun i j hi hj hij => ?_
    simp only [heights, List.length_mapIdx] at hi hj
    simp only [heights, List.getElem_mapIdx]
    by_cases hA : A.length ≤ i
    · have := ht.end_lt_end hg hi hj hA hij
      omega
    · have := List.pairwise_iff_getElem.1 ht.ends_sorted i j hi hj hij
      omega
  le _ _ := Nat.zero_le _
  lt d hd := by
    obtain ⟨k, hk, rfl⟩ := List.mem_mapIdx.1 hd
    have := ht.ends_le _ (List.getElem_mem hk)
    omega

theorem Valid.progress_lt_pow (ht : t.Valid) (hg : Guided A t) :
    t.progress A.length < 2 ^ (t.values.size + A.length + 1) := (ht.rises hg).rank_lt

theorem Valid.progress_lt (ht : t.Valid) (hg : Guided A t) :
    t.progress A.length < Solver.roundBound t.values.size A.length := by
  have hpow : 2 ^ (t.values.size + A.length + 1) ≤ (t.values.size + 2) ^ (t.values.size + A.length + 1) :=
    Nat.pow_le_pow_left (by omega) _
  exact Nat.lt_of_lt_of_le (ht.progress_lt_pow hg) (Nat.le_trans hpow (Solver.pow_le_roundBound ..))

theorem Before.progress_lt (h : t.Before t') (ht : t.Valid) (hg : Guided A t) (ht' : t'.Valid) (hg' : Guided A t')
    (hsize : t'.values.size = t.values.size) : t.progress A.length < t'.progress A.length := by
  have hrises := ht'.rises hg'
  rw [hsize] at hrises
  rw [progress, progress, hsize]
  exact (ht.rises hg).rank_lt_rank hrises (lex_mapIdx_add _ h)

end Trail

end Countermodels.Sat
