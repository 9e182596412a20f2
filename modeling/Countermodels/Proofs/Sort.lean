import Countermodels.Proofs.Gives
import Countermodels.Sort

/-! Sorting rearranges a list, whatever the comparison says. The sort can find the comparison to
contradict itself, but not if it is a weak order on the elements of the list. -/

namespace Countermodels.Sort

variable {α : Type} {less : α → α → Bool}

/-- The comparison is a weak order on the elements of a list. -/
structure Comparable (less : α → α → Bool) (xs : List α) : Prop where
  asymm : ∀ x ∈ xs, ∀ y ∈ xs, less x y = true → less y x = false
  between : ∀ x ∈ xs, ∀ y ∈ xs, ∀ z ∈ xs, less x z = true → less x y = true ∨ less y z = true

theorem Comparable.mono {xs ys : List α} (h : Comparable less ys) (hs : xs ⊆ ys) : Comparable less xs :=
  ⟨fun x hx y hy => h.asymm x (hs hx) y (hs hy),
    fun x hx y hy z hz => h.between x (hs hx) y (hs hy) z (hs hz)⟩

/-- The fault of a sort that found the comparison to contradict itself. -/
def Contradicts (less : α → α → Bool) (xs : List α) (e : Fault) : Prop := e = .order ∧ ¬ Comparable less xs

theorem Contradicts.mono {xs ys : List α} {e : Fault} (h : Contradicts less xs e) (hs : xs ⊆ ys) :
    Contradicts less ys e :=
  ⟨h.1, fun hc => h.2 (hc.mono hs)⟩

/-- No element of the list precedes an earlier one. -/
def Ordered (less : α → α → Bool) (xs : List α) : Prop := xs.Pairwise fun x y => less y x = false

/-- The list is a rearrangement, in order. -/
def Sorts (less : α → α → Bool) (xs ys : List α) : Prop :=
  ys.Perm xs ∧ (Comparable less xs → Ordered less ys)

/-! Insertion. -/

theorem insert_perm (x : α) (ys : List α) : (insert less x ys).Perm (x :: ys) := by
  induction ys with
  | nil => exact .refl _
  | cons y ys ih =>
    rw [insert]
    split
    · exact (ih.cons y).trans (.swap ..)
    · exact .refl _

theorem insert_ordered {x : α} {ys : List α} (hc : Comparable less (x :: ys))
    (ho : Ordered less ys.reverse) : Ordered less (insert less x ys).reverse := by
  rw [Ordered, List.pairwise_reverse] at ho ⊢
  induction ys with
  | nil => exact List.pairwise_singleton ..
  | cons y ys ih =>
    rw [List.pairwise_cons] at ho
    rw [insert]
    split
    · next hlt =>
      have hrest : Comparable less (x :: ys) := hc.mono (List.cons_subset_cons x (List.subset_cons_self ..))
      refine List.pairwise_cons.2 ⟨fun z hz => ?_, ih hrest ho.2⟩
      rcases List.mem_cons.1 ((insert_perm x ys).mem_iff.1 hz) with rfl | hz
      · exact hc.asymm _ (by simp) _ (by simp) hlt
      · exact ho.1 z hz
    · next hlt =>
      refine List.pairwise_cons.2 ⟨fun z hz => ?_, List.pairwise_cons.2 ho⟩
      rcases List.mem_cons.1 hz with rfl | hz
      · simpa using hlt
      · by_contra hxz
        rcases hc.between x (by simp) y (by simp) z (by simp [hz]) (by simpa using hxz) with h | h
        · exact hlt h
        · simp [ho.1 z hz] at h

theorem extend_perm (sorted xs : List α) : (extend less sorted xs).Perm (sorted ++ xs) := by
  have key : ∀ ys : List α, (xs.foldl (fun ys x => insert less x ys) ys).Perm (ys ++ xs) := by
    induction xs with
    | nil => simp
    | cons x xs ih =>
      intro ys
      refine (ih _).trans (((insert_perm x ys).append_right xs).trans ?_)
      exact List.perm_middle.symm
  exact (List.reverse_perm _).trans ((key _).trans ((List.reverse_perm sorted).append_right xs))

theorem extend_ordered {sorted xs : List α} (hc : Comparable less (sorted ++ xs)) (ho : Ordered less sorted) :
    Ordered less (extend less sorted xs) := by
  have key : ∀ ys : List α, Comparable less (ys ++ xs) → Ordered less ys.reverse →
      Ordered less (xs.foldl (fun ys x => insert less x ys) ys).reverse := by
    clear ho hc
    induction xs with
    | nil => exact fun ys _ ho => ho
    | cons x xs ih =>
      intro ys hc ho
      refine ih _ (hc.mono fun z hz => ?_) (insert_ordered (hc.mono fun z hz => ?_) ho)
      · rcases List.mem_append.1 hz with hz | hz
        · rcases List.mem_cons.1 ((insert_perm x ys).mem_iff.1 hz) with rfl | hz <;> simp [*]
        · simp [hz]
      · rcases List.mem_cons.1 hz with rfl | hz <;> simp [*]
  exact key _ (hc.mono fun z hz => by simpa using hz) (by rwa [List.reverse_reverse])

theorem sorts_extend_nil (xs : List α) : Sorts less xs (extend less [] xs) :=
  ⟨extend_perm [] xs, fun hc => extend_ordered hc .nil⟩

theorem Sorts.extend {ys sorted : List α} (h : Sorts less ys sorted) (xs : List α) :
    Sorts less (ys ++ xs) (extend less sorted xs) := by
  refine ⟨(extend_perm ..).trans (h.1.append_right xs), fun hc => extend_ordered ?_ ?_⟩
  · exact hc.mono ((h.1.append_right xs).subset)
  · exact h.2 (hc.mono (List.subset_append_left ..))

theorem Comparable.trans {xs : List α} (h : Comparable less xs) {x y z : α} (hx : x ∈ xs) (hy : y ∈ xs)
    (hz : z ∈ xs) (hxy : less y x = false) (hyz : less z y = false) : less z x = false := by
  by_contra hzx
  rcases h.between z hz y hy x hx (by simpa using hzx) with h | h
  · simp [hyz] at h
  · simp [hxy] at h

/-- The second half of sorting four elements, when `a`, `b` and `c`, `d` are in order. -/
def interleave (less : α → α → Bool) (a b c d : α) : List α :=
  let low := less c a
  let high := less d b
  let left := if low then a else if high then c else b
  let right := if high then d else if low then b else c
  let middle := if less right left then [right, left] else [left, right]
  (if low then c else a) :: middle ++ [if high then b else d]

theorem interleave_perm (a b c d : α) : (interleave less a b c d).Perm [a, b, c, d] := by
  classical
  refine List.perm_iff_count.2 fun x => ?_
  unfold interleave
  dsimp only
  cases less c a <;> cases less d b <;> simp only [if_true, if_false, Bool.false_eq_true] <;>
    split <;> simp only [List.count_append, List.count_cons, List.count_nil] <;> omega

theorem interleave_ordered {a b c d : α} (h : Comparable less [a, b, c, d]) (hab : less b a = false)
    (hcd : less d c = false) : Ordered less (interleave less a b c d) := by
  have htrans := fun x y z hx hy hz => h.trans (x := x) (y := y) (z := z) hx hy hz
  have hasymm := h.asymm
  simp only [List.mem_cons, List.not_mem_nil, or_false] at htrans hasymm
  unfold interleave Ordered
  dsimp only
  cases hlow : less c a <;> cases hhigh : less d b <;> simp only [if_true, if_false, Bool.false_eq_true] <;>
    split <;> simp <;> grind

theorem sorts_interleave {a b c d : α} (hab : Comparable less [a, b, c, d] → less b a = false)
    (hcd : Comparable less [a, b, c, d] → less d c = false) :
    Sorts less [a, b, c, d] (interleave less a b c d) :=
  ⟨interleave_perm a b c d, fun h => interleave_ordered h (hab h) (hcd h)⟩

theorem Sorts.of_perm {xs ys zs : List α} (h : Sorts less xs zs) (hp : xs.Perm ys) : Sorts less ys zs :=
  ⟨h.1.trans hp, fun hc => h.2 (hc.mono hp.subset)⟩

theorem sorts_four (a b c d : α) : Sorts less [a, b, c, d] (four less a b c d) := by
  have heq : four less a b c d = interleave less (if less b a then b else a) (if less b a then a else b)
      (if less d c then d else c) (if less d c then c else d) := by
    cases hba : less b a <;> cases hdc : less d c <;> simp [four, interleave, hba, hdc]
  rw [heq]
  refine (sorts_interleave (fun h => ?_) (fun h => ?_)).of_perm ?_
  · cases hba : less b a with
    | true => exact h.asymm _ (by simp [hba]) _ (by simp [hba]) (by simp [hba])
    | false => simp [hba]
  · cases hdc : less d c with
    | true => exact h.asymm _ (by simp [hdc]) _ (by simp [hdc]) (by simp [hdc])
    | false => simp [hdc]
  · classical
    refine List.perm_iff_count.2 fun x => ?_
    cases less b a <;> cases less d c <;>
      simp only [if_true, if_false, Bool.false_eq_true, List.count_cons, List.count_nil] <;> omega

/-! Merging from both ends. -/

/-- What one end takes of two lists: `ls₁` and `rs₁`, with `ls₂` and `rs₂` left. -/
structure Taken (less : α → α → Bool) (k : Nat) (taken ls₁ rs₁ : List α) : Prop where
  perm : taken.Perm (ls₁ ++ rs₁)
  count : ls₁.length + rs₁.length = k

/-- The front leaves nothing that should come before what it takes. -/
theorem takeFirst_spec {k : Nat} {ls rs taken ls₂ rs₂ : List α} (hl : k ≤ ls.length) (hr : k ≤ rs.length)
    (h : takeFirst less k ls rs = (taken, ls₂, rs₂)) :
    ∃ ls₁ rs₁, ls = ls₁ ++ ls₂ ∧ rs = rs₁ ++ rs₂ ∧ Taken less k taken ls₁ rs₁ ∧
      (Comparable less (ls ++ rs) → Ordered less ls → Ordered less rs → Ordered less taken ∧
        (∀ r ∈ rs₁, ∀ l ∈ ls₂, less r l = true) ∧ ∀ l ∈ ls₁, ∀ r ∈ rs₂, less r l = false) := by
  induction k generalizing ls rs taken ls₂ rs₂ with
  | zero =>
    rw [takeFirst] at h
    · cases h
      exact ⟨[], [], rfl, rfl, ⟨.refl _, rfl⟩, fun _ _ _ => ⟨.nil, by simp, by simp⟩⟩
    · simp
  | succ k ih =>
    obtain ⟨l, ls, rfl⟩ : ∃ l ls', ls = l :: ls' := List.exists_cons_of_length_pos (by omega)
    obtain ⟨r, rs, rfl⟩ : ∃ r rs', rs = r :: rs' := List.exists_cons_of_length_pos (by omega)
    simp only [List.length_cons] at hl hr
    rw [takeFirst] at h
    split at h
    · next hlt =>
      rcases hrec : takeFirst less k (l :: ls) rs with ⟨taken', ls', rs'⟩
      rw [hrec] at h
      cases h
      obtain ⟨ls₁, rs₁, hls, hrs, ht, hord⟩ := ih (by simp; omega) (by omega) hrec
      refine ⟨ls₁, r :: rs₁, hls, by simp [hrs], ⟨(ht.perm.cons r).trans List.perm_middle.symm, ?_⟩, ?_⟩
      · have := ht.count
        simp
        omega
      · intro hc hol hor
        have hor' := List.pairwise_cons.1 hor
        have hol' := List.pairwise_cons.1 hol
        obtain ⟨hot, hrl, hlr⟩ := hord (hc.mono fun x hx => by simp at hx ⊢; tauto) hol hor'.2
        -- the right head precedes everything that is left on the left
        have hhead : ∀ l' ∈ l :: ls, less r l' = true := fun l' hl' => by
          rcases List.mem_cons.1 hl' with rfl | hl'
          · exact hlt
          · have h2 := hc.between r (by simp) l' (by simp [hl']) l (by simp) hlt
            exact h2.resolve_right (by simp [hol'.1 l' hl'])
        refine ⟨List.pairwise_cons.2 ⟨fun x hx => ?_, hot⟩, fun r' hr' l' hl' => ?_, hlr⟩
        · rcases List.mem_append.1 (ht.perm.mem_iff.1 hx) with hx | hx
          · have hx' : x ∈ l :: ls := hls ▸ List.mem_append_left _ hx
            exact hc.asymm r (by simp) x (List.mem_append_left _ hx') (hhead x hx')
          · exact hor'.1 x (hrs ▸ List.mem_append_left _ hx)
        · rcases List.mem_cons.1 hr' with rfl | hr'
          · exact hhead l' (hls ▸ List.mem_append_right _ hl')
          · exact hrl r' hr' l' hl'
    · next hlt =>
      rcases hrec : takeFirst less k ls (r :: rs) with ⟨taken', ls', rs'⟩
      rw [hrec] at h
      cases h
      obtain ⟨ls₁, rs₁, hls, hrs, ht, hord⟩ := ih (by omega) (by simp; omega) hrec
      refine ⟨l :: ls₁, rs₁, by simp [hls], hrs, ⟨ht.perm.cons l, ?_⟩, ?_⟩
      · have := ht.count
        simp
        omega
      · intro hc hol hor
        have hor' := List.pairwise_cons.1 hor
        have hol' := List.pairwise_cons.1 hol
        obtain ⟨hot, hrl, hlr⟩ := hord (hc.mono fun x hx => by simp at hx ⊢; tauto) hol'.2 hor
        have hhead : ∀ r' ∈ r :: rs, less r' l = false := fun r' hr' => by
          rcases List.mem_cons.1 hr' with rfl | hr'
          · simpa using hlt
          · exact hc.trans (y := r) (by simp) (by simp) (by simp [hr']) (by simpa using hlt) (hor'.1 r' hr')
        refine ⟨List.pairwise_cons.2 ⟨fun x hx => ?_, hot⟩, hrl, fun l' hl' r' hr' => ?_⟩
        · rcases List.mem_append.1 (ht.perm.mem_iff.1 hx) with hx | hx
          · exact hol'.1 x (hls ▸ List.mem_append_left _ hx)
          · exact hhead x (hrs ▸ List.mem_append_left _ hx)
        · rcases List.mem_cons.1 hl' with rfl | hl'
          · exact hhead r' (hrs ▸ List.mem_append_right _ hr')
          · exact hlr l' hl' r' hr'

/-- The back is a front of the reversed comparison. -/
theorem takeLast_eq (k : Nat) (ls rs taken : List α) :
    takeLast less k ls rs taken =
      ((takeFirst (fun x y => less y x) k rs ls).1.reverse ++ taken,
        (takeFirst (fun x y => less y x) k rs ls).2.2) := by
  induction k generalizing ls rs taken with
  | zero => cases ls <;> cases rs <;> rfl
  | succ k ih =>
    rcases ls with _ | ⟨l, ls⟩ <;> rcases rs with _ | ⟨r, rs⟩
    · rfl
    · rfl
    · rfl
    · rw [takeLast, takeFirst]
      split <;> simp [ih]

theorem Comparable.flip {xs : List α} (h : Comparable less xs) : Comparable (fun x y => less y x) xs :=
  ⟨fun x hx y hy => h.asymm y hy x hx, fun x hx y hy z hz hxz => (h.between z hz y hy x hx hxz).symm⟩

theorem ordered_flip_reverse {xs : List α} :
    Ordered (fun x y => less y x) xs.reverse ↔ Ordered less xs := List.pairwise_reverse

/-- The back leaves nothing that should come after what it takes. -/
theorem takeLast_spec {k : Nat} {ls rs taken ls₁ : List α} (hl : k ≤ ls.length) (hr : k ≤ rs.length)
    (h : takeLast less k ls.reverse rs.reverse [] = (taken, ls₁)) :
    ∃ ls₂ rs₁ rs₂, ls = ls₁.reverse ++ ls₂ ∧ rs = rs₁ ++ rs₂ ∧ Taken less k taken ls₂ rs₂ ∧
      (Comparable less (ls ++ rs) → Ordered less ls → Ordered less rs → Ordered less taken ∧
        (∀ l ∈ ls₂, ∀ r ∈ rs₁, less r l = true) ∧ ∀ r ∈ rs₂, ∀ l ∈ ls₁, less r l = false) := by
  rcases hf : takeFirst (fun x y => less y x) k rs.reverse ls.reverse with ⟨taken', rs₁, ls₁'⟩
  rw [takeLast_eq, hf] at h
  simp only [List.append_nil, Prod.mk.injEq] at h
  obtain ⟨rfl, rfl⟩ := h
  obtain ⟨rs₂, ls₂, hrs, hls, ht, hord⟩ := takeFirst_spec (by simpa using hr) (by simpa using hl) hf
  refine ⟨ls₂.reverse, rs₁.reverse, rs₂.reverse, ?_, ?_, ⟨?_, ?_⟩, fun hc hol hor => ?_⟩
  · rw [← List.reverse_append, ← hls, List.reverse_reverse]
  · rw [← List.reverse_append, ← hrs, List.reverse_reverse]
  · refine (List.reverse_perm _).trans (ht.perm.trans (List.perm_append_comm.trans ?_))
    exact (List.reverse_perm _).symm.append (List.reverse_perm _).symm
  · have := ht.count
    simp
    omega
  · obtain ⟨hot, hrl, hlr⟩ := hord (hc.flip.mono fun x hx => by simp at hx ⊢; tauto)
      (ordered_flip_reverse.2 hor) (ordered_flip_reverse.2 hol)
    refine ⟨?_, fun l hl r hr => ?_, fun r hr l hl => ?_⟩
    · rw [← ordered_flip_reverse, List.reverse_reverse]
      exact hot
    · exact hrl l (by simpa using hl) r (by simpa using hr)
    · exact hlr r (by simpa using hr) l hl

/-- Two ways to cut a list overlap. -/
theorem exists_overlap {xs p s p' s' : List α} (h : xs = p ++ s) (h' : xs = p' ++ s')
    (hlt : p'.length < p.length) : ∃ x ∈ p, x ∈ s' := by
  have hs : s' = (p ++ s).drop p'.length := by rw [← h, h', List.drop_left]
  rw [List.drop_append_of_le_length (by omega)] at hs
  obtain ⟨x, rest, hx⟩ := List.exists_cons_of_length_pos (l := p.drop p'.length) (by simp; omega)
  refine ⟨x, List.mem_of_mem_drop (i := p'.length) (by simp [hx]), ?_⟩
  simp [hs, hx]

/-- What the ends take and what lies between them is the whole, in order. -/
theorem sorts_taken {k k' : Nat} {left right l₁ ml l₂ r₁ mr r₂ first last : List α} (hl : left = l₁ ++ (ml ++ l₂))
    (hr : right = r₁ ++ (mr ++ r₂)) (ht : Taken less k first l₁ r₁) (ht' : Taken less k' last l₂ r₂) :
    (first ++ (ml ++ mr) ++ last).Perm (left ++ right) ∧
      (Comparable less (left ++ right) → Ordered less left → Ordered less right → Ordered less first →
        Ordered less last → (ml ++ mr).length ≤ 1 → (∀ r ∈ r₁, ∀ l ∈ ml ++ l₂, less r l = true) →
        (∀ l ∈ l₁, ∀ r ∈ mr ++ r₂, less r l = false) → (∀ l ∈ l₂, ∀ r ∈ mr, less r l = true) →
        (∀ r ∈ r₂, ∀ l ∈ ml, less r l = false) → Ordered less (first ++ (ml ++ mr) ++ last)) := by
  constructor
  · classical
    refine List.perm_iff_count.2 fun x => ?_
    have h1 := ht.perm.count_eq x
    have h2 := ht'.perm.count_eq x
    simp only [hl, hr, List.count_append] at h1 h2 ⊢
    omega
  · intro hc hol hor hof hoe hmid c₁ c₂ c₃ c₄
    have hm : ∀ {x}, x ∈ l₁ ++ (ml ++ l₂) ∨ x ∈ r₁ ++ (mr ++ r₂) → x ∈ left ++ right := fun hx => by
      rw [hl, hr]
      exact List.mem_append.2 hx
    rw [hl, Ordered, List.pairwise_append, List.pairwise_append] at hol
    rw [hr, Ordered, List.pairwise_append, List.pairwise_append] at hor
    have hom : (ml ++ mr).Pairwise fun x y => less y x = false := by
      generalize ml ++ mr = mid at hmid
      rcases mid with _ | ⟨x, _ | ⟨y, mid⟩⟩
      · exact .nil
      · exact List.pairwise_singleton ..
      · simp at hmid
    refine List.pairwise_append.2 ⟨List.pairwise_append.2 ⟨hof, hom, fun x hx y hy => ?_⟩, hoe, fun x hx y hy => ?_⟩
    · rcases List.mem_append.1 (ht.perm.mem_iff.1 hx) with hx | hx <;> rcases List.mem_append.1 hy with hy | hy
      · exact hol.2.2 x hx y (by simp [hy])
      · exact c₂ x hx y (by simp [hy])
      · exact hc.asymm x (hm (by simp [hx])) y (hm (by simp [hy])) (c₁ x hx y (by simp [hy]))
      · exact hor.2.2 x hx y (by simp [hy])
    · have hy := List.mem_append.1 (ht'.perm.mem_iff.1 hy)
      rcases List.mem_append.1 hx with hx | hx
      · rcases List.mem_append.1 (ht.perm.mem_iff.1 hx) with hx | hx <;> rcases hy with hy | hy
        · exact hol.2.2 x hx y (by simp [hy])
        · exact c₂ x hx y (by simp [hy])
        · exact hc.asymm x (hm (by simp [hx])) y (hm (by simp [hy])) (c₁ x hx y (by simp [hy]))
        · exact hor.2.2 x hx y (by simp [hy])
      · rcases List.mem_append.1 hx with hx | hx <;> rcases hy with hy | hy
        · exact hol.2.1.2.2 x hx y hy
        · exact c₄ y hy x hx
        · exact hc.asymm x (hm (by simp [hx])) y (hm (by simp [hy])) (c₃ y hy x hx)
        · exact hor.2.1.2.2 x hx y hy

/-- A list is what it lacks of a suffix, and the suffix. -/
theorem take_append_of_suffix {xs p s s' : List α} (h : xs = p ++ s) (hs : s' <:+ xs) (hlen : s'.length ≤ s.length) :
    s = s.take (s.length - s'.length) ++ s' :=
  (List.suffix_iff_eq_append.1 (List.suffix_of_suffix_length_le hs ⟨p, h.symm⟩ hlen)).symm

theorem mergeHalves_yields {left right : List α} (hlen : left.length ≤ right.length)
    (hlen' : right.length ≤ left.length + 1) :
    Yields (fun e => e = .order ∧ ¬ (Comparable less (left ++ right) ∧ Ordered less left ∧ Ordered less right))
      (mergeHalves less (left ++ right)) fun ys => ys.Perm (left ++ right) ∧
        (Comparable less (left ++ right) → Ordered less left → Ordered less right → Ordered less ys) := by
  have hhalf : (left.length + right.length) / 2 = left.length := by omega
  have hsplit : (left ++ right).splitAt left.length = (left, right) := by simp [List.splitAt_eq]
  rcases hf : takeFirst less left.length left right with ⟨first, ls, rs⟩
  rcases hb : takeLast less left.length left.reverse right.reverse [] with ⟨last, ls'⟩
  obtain ⟨l₁, r₁, hl, hr, ht, hord⟩ := takeFirst_spec (Nat.le_refl _) hlen hf
  obtain ⟨l₂, rs', r₂, hl', hr', ht', hord'⟩ := takeLast_spec (Nat.le_refl _) hlen hb
  have hcl := congrArg List.length hl
  have hcr := congrArg List.length hr
  have hcl' := congrArg List.length hl'
  have hcr' := congrArg List.length hr'
  have hc := ht.count
  have hc' := ht'.count
  simp only [List.length_append, List.length_reverse] at hcl hcr hcl' hcr'
  unfold mergeHalves
  simp only [List.length_append, hhalf, hsplit, hf, hb]
  have key : ∀ ml mr, ls = ml ++ l₂ → rs = mr ++ r₂ → (ml ++ mr).length ≤ 1 →
      (first ++ (ml ++ mr) ++ last).Perm (left ++ right) ∧ (Comparable less (left ++ right) →
        Ordered less left → Ordered less right → Ordered less (first ++ (ml ++ mr) ++ last)) := by
    rintro ml mr hls hrs hmid
    have hrs' : rs' = r₁ ++ mr := List.append_cancel_right
      (show rs' ++ r₂ = _ ++ r₂ by rw [← hr', hr, hrs, List.append_assoc])
    have hls' : ls'.reverse = l₁ ++ ml := List.append_cancel_right
      (show ls'.reverse ++ l₂ = _ ++ l₂ by rw [← hl', hl, hls, List.append_assoc])
    obtain ⟨hperm, hsorted⟩ := sorts_taken (hls ▸ hl) (hrs ▸ hr) ht ht'
    refine ⟨hperm, fun hcmp hol hor => ?_⟩
    obtain ⟨hof, c₁, c₂⟩ := hord hcmp hol hor
    obtain ⟨hoe, c₃, c₄⟩ := hord' hcmp hol hor
    refine hsorted hcmp hol hor hof hoe hmid (hls ▸ c₁) (hrs ▸ c₂) (fun l hl r hr => ?_) fun r hr l hl => ?_
    · exact c₃ l hl r (hrs' ▸ List.mem_append_right _ hr)
    · exact c₄ r hr l (List.mem_reverse.1 (hls' ▸ List.mem_append_right _ hl))
  have hls : l₂.length ≤ ls.length → ls = ls.take (ls.length - l₂.length) ++ l₂ :=
    take_append_of_suffix hl ⟨_, hl'.symm⟩
  have hrs : r₂.length ≤ rs.length → rs = rs.take (rs.length - r₂.length) ++ r₂ :=
    take_append_of_suffix hr ⟨_, hr'.symm⟩
  split
  · next hodd =>
    have hmid := key (ls.take 1) [] (by rw [← show ls.length - l₂.length = 1 by omega]; exact hls (by omega))
      (by have := hrs (by omega); rwa [show rs.length - r₂.length = 0 by omega, List.take_zero] at this)
      (by rw [List.append_nil, List.length_take]; omega)
    rwa [List.append_nil] at hmid
  · next hodd =>
    split
    · next heven =>
      have hmid := key [] (rs.take ((left.length + right.length) % 2))
        (by have := hls (by omega); rwa [show ls.length - l₂.length = 0 by omega, List.take_zero] at this)
        (by rw [← show rs.length - r₂.length = (left.length + right.length) % 2 by omega]; exact hrs (by omega))
        (by simp; omega)
      exact hmid
    · next heven =>
      -- the ends would cross each other on one side, and leave a gap on the other
      refine ⟨rfl, ?_⟩
      rintro ⟨hcmp, hol, hor⟩
      obtain ⟨-, c₁, c₂⟩ := hord hcmp hol hor
      obtain ⟨-, c₃, c₄⟩ := hord' hcmp hol hor
      rcases Nat.lt_or_ge (ls.length + ls'.length) left.length with hlt | hge
      · obtain ⟨l, hl₁, hl₂⟩ := exists_overlap hl hl' (by simp; omega)
        obtain ⟨r, hr₁, hr₂⟩ := exists_overlap hr' hr (by omega)
        have := c₂ l hl₁ r hr₂
        simp [c₃ l hl₂ r hr₁] at this
      · obtain ⟨l, hl₁, hl₂⟩ := exists_overlap hl' hl (by simp; omega)
        obtain ⟨r, hr₁, hr₂⟩ := exists_overlap hr hr' (by omega)
        have := c₁ r hr₁ l hl₂
        simp [c₄ r hr₂ l (List.mem_reverse.1 hl₁)] at this

/-- Merging two lists that were sorted. -/
theorem mergeHalves_sorts {xs ys left right : List α} (hl : Sorts less xs left) (hr : Sorts less ys right)
    (hlen : xs.length ≤ ys.length) (hlen' : ys.length ≤ xs.length + 1) :
    Yields (Contradicts less (xs ++ ys)) (mergeHalves less (left ++ right)) (Sorts less (xs ++ ys)) := by
  have hperm : (left ++ right).Perm (xs ++ ys) := hl.1.append hr.1
  have hcmp : Comparable less (xs ++ ys) →
      Comparable less (left ++ right) ∧ Ordered less left ∧ Ordered less right := fun hc =>
    ⟨hc.mono hperm.subset, hl.2 (hc.mono (List.subset_append_left ..)), hr.2 (hc.mono (List.subset_append_right ..))⟩
  have hmerge := @mergeHalves_yields _ less left right
    (by rw [hl.1.length_eq, hr.1.length_eq]; exact hlen) (by rw [hl.1.length_eq, hr.1.length_eq]; exact hlen')
  refine (hmerge.mono fun _ he => ⟨he.1, fun hc => he.2 (hcmp hc)⟩).imp fun zs hz => ⟨hz.1.trans hperm, fun hc => ?_⟩
  obtain ⟨h1, h2, h3⟩ := hcmp hc
  exact hz.2 h1 h2 h3

theorem sortHalf_yields (size : Nat) (xs : List α) :
    Yields (Contradicts less xs) (sortHalf less size xs) (Sorts less xs) := by
  unfold sortHalf
  split
  · next a b c d e f g h xs =>
    split
    · have hmerge := mergeHalves_sorts (@sorts_four _ less a b c d) (@sorts_four _ less e f g h)
        (by simp) (by simp)
      refine (hmerge.mono fun _ he => he.mono (List.subset_append_left _ xs)).bind fun ys hys => ?_
      exact .pure (hys.extend xs)
    · exact (sorts_four a b c d).extend (e :: f :: g :: h :: xs)
  · next a b c d xs _ =>
    split
    · exact (sorts_four a b c d).extend xs
    · exact sorts_extend_nil _
  · exact sorts_extend_nil _

theorem sortSmall_yields (xs : List α) :
    Yields (Contradicts less xs) (sortSmall less xs) (·.Perm xs) := by
  unfold sortSmall
  split
  · exact .pure (.refl _)
  · next h2 =>
    have hsplit : xs.splitAt (xs.length / 2) = (xs.take (xs.length / 2), xs.drop (xs.length / 2)) := List.splitAt_eq ..
    have happ : xs.take (xs.length / 2) ++ xs.drop (xs.length / 2) = xs := List.take_append_drop ..
    rw [hsplit]
    dsimp only
    refine ((sortHalf_yields ..).mono fun _ he => he.mono (List.take_subset ..)).bind fun left hleft => ?_
    refine ((sortHalf_yields ..).mono fun _ he => he.mono (List.drop_subset ..)).bind fun right hright => ?_
    have hmerge := mergeHalves_sorts hleft hright (by simp; omega) (by simp; omega)
    rw [happ] at hmerge
    exact hmerge.imp fun _ h => h.1

/-! Runs. -/

theorem merge_perm (left right : List α) : (merge less left right).Perm (left ++ right) := by
  unfold merge
  split
  · exact List.merge_perm_append ..
  · refine (List.reverse_perm _).trans ((List.merge_perm_append ..).trans (List.perm_append_comm.trans ?_))
    exact (List.reverse_perm _).append (List.reverse_perm _)

/-- Cutting takes a run off, which is not empty. -/
theorem cut_yields {least : Nat} (eager : Bool) {xs : List α} (hleast : 0 < least) (hxs : xs ≠ []) :
    Yields (Contradicts less xs) (cut less least eager xs) fun r =>
      (r.1.elems ++ r.2).Perm xs ∧ r.2.length < xs.length := by
  have hpos : 0 < xs.length := List.length_pos_iff.2 hxs
  unfold cut
  rcases sortedFront less xs with ⟨length, turned⟩
  dsimp only
  split
  · refine .pure ⟨?_, by simp; omega⟩
    have happ : (xs.take length ++ xs.drop length).Perm xs := by rw [List.take_append_drop]
    cases turned with
    | true => exact ((List.reverse_perm _).append_right _).trans happ
    | false => exact happ
  · split
    · refine ((sortSmall_yields ..).mono fun _ he => he.mono (List.take_subset ..)).bind fun ys hys => ?_
      refine .pure ⟨(hys.append_right _).trans ?_, ?_⟩
      · rw [List.take_append_drop]
      · simp [smallLength]
        omega
    · refine .pure ⟨?_, by simp; omega⟩
      rw [List.take_append_drop]

theorem leastRun_pos {size : Nat} (h : 2 ≤ size) : 0 < leastRun size := by
  unfold leastRun rootOf
  split
  · omega
  · have hlog : 12 ≤ size.log2 := (Nat.le_log2 (by omega)).2 (by omega)
    have hpow : 2 ^ 1 ≤ 2 ^ ((size.log2 + 1) / 2) := Nat.pow_le_pow_right (by omega) (by omega)
    dsimp only
    rw [Nat.one_shiftLeft]
    exact Nat.div_pos (Nat.le_trans hpow (Nat.le_add_right ..)) Nat.zero_lt_two

section Runs

variable {whole : List α} {sort : List α → Except Fault (List α)}
  (hsort : ∀ ys ⊆ whole, Yields (Contradicts less whole) (sort ys) (·.Perm ys))

include hsort

theorem settle_yields {run : Run α} (h : run.elems ⊆ whole) :
    Yields (Contradicts less whole) (settle sort run) (·.Perm run.elems) := by
  unfold settle
  split
  · exact List.Perm.refl _
  · exact hsort _ h

theorem join_yields {left right : Run α} (h : left.elems ++ right.elems ⊆ whole) :
    Yields (Contradicts less whole) (join less sort left right)
      fun r => r.elems.Perm (left.elems ++ right.elems) := by
  obtain ⟨hl, hr⟩ := List.append_subset.1 h
  unfold join
  split
  · refine (settle_yields hsort hl).bind fun ls hls => (settle_yields hsort hr).bind fun rs hrs => ?_
    exact .pure ((merge_perm ls rs).trans (hls.append hrs))
  · exact .pure (.refl _)

/-- The elements of the runs that wait to be joined. -/
def waiting (stack : List (Run α × Nat)) : List α := stack.flatMap (·.1.elems)

theorem collapse_yields {top : Nat} {stack : List (Run α × Nat)} {run : Run α}
    (h : waiting stack ++ run.elems ⊆ whole) :
    Yields (Contradicts less whole) (collapse less sort top stack run)
      fun r => (waiting r.1 ++ r.2.elems).Perm (waiting stack ++ run.elems) ∧ (top = 0 → r.1 = []) := by
  induction stack generalizing run with
  | nil => exact ⟨.refl _, fun _ => rfl⟩
  | cons node stack ih =>
    obtain ⟨left, depth⟩ := node
    have hflat : waiting ((left, depth) :: stack) = left.elems ++ waiting stack := by simp [waiting]
    have hswap : (waiting stack ++ (left.elems ++ run.elems)).Perm
        (waiting ((left, depth) :: stack) ++ run.elems) := by
      rw [hflat, ← List.append_assoc]
      exact List.perm_append_comm.append_right _
    rw [collapse]
    split
    · refine (join_yields hsort fun x hx => h (hswap.subset (List.mem_append_right _ hx))).bind fun r hr => ?_
      have hperm := (hr.append_left (waiting stack)).trans hswap
      exact (ih fun x hx => h (hperm.subset hx)).imp fun r hr => ⟨hr.1.trans hperm, hr.2⟩
    · next htop => exact .pure ⟨.refl _, fun h0 => absurd (h0 ▸ Nat.zero_le depth) htop⟩

theorem assemble_yields {eager : Bool} {size least fuel place : Nat} {xs : List α} {stack : List (Run α × Nat)}
    {run : Run α} (hleast : 0 < least) (hfuel : xs.length ≤ fuel)
    (h : waiting stack ++ run.elems ++ xs ⊆ whole) :
    Yields (Contradicts less whole) (assemble less sort eager size least fuel place xs stack run)
      fun r => r.elems.Perm (waiting stack ++ run.elems ++ xs) := by
  induction fuel generalizing place xs stack run with
  | zero =>
    obtain rfl := List.eq_nil_of_length_eq_zero (Nat.le_zero.1 hfuel)
    rw [List.append_nil] at h ⊢
    rw [assemble]
    refine (collapse_yields hsort h).bind fun r hr => .pure ?_
    simpa [hr.2 rfl, waiting] using hr.1
  | succ fuel ih =>
    by_cases hxs : xs = []
    · subst hxs
      rw [List.append_nil] at h ⊢
      rw [assemble]
      refine (collapse_yields hsort h).bind fun r hr => .pure ?_
      simpa [hr.2 rfl, waiting] using hr.1
    · rw [assemble]
      · refine ((cut_yields eager hleast hxs).mono fun _ he =>
          he.mono fun x hx => h (List.mem_append_right _ hx)).bind fun r hr => ?_
        obtain ⟨next, rest⟩ := r
        dsimp only
        refine (collapse_yields hsort fun x hx => h (List.mem_append_left _ hx)).bind fun c hc => ?_
        obtain ⟨stack', run'⟩ := c
        have hperm : (waiting ((run', depth size (place - run.elems.length) place (place + next.elems.length)) :: stack')
            ++ next.elems ++ rest).Perm (waiting stack ++ run.elems ++ xs) := by
          have hflat : (waiting ((run', depth size (place - run.elems.length) place
              (place + next.elems.length)) :: stack')).Perm (waiting stack' ++ run'.elems) := by
            simp only [waiting, List.flatMap_cons]
            exact List.perm_append_comm
          rw [List.append_assoc]
          exact (hflat.trans hc.1).append hr.1
        have hlt : rest.length < xs.length := hr.2
        exact (ih (by omega) fun x hx => h (hperm.subset hx)).imp fun r hr => hr.trans hperm
      · exact hxs

theorem sortRuns_yields (eager : Bool) {xs : List α} (h : xs ⊆ whole) :
    Yields (Contradicts less whole) (sortRuns less sort eager xs) (·.Perm xs) := by
  unfold sortRuns
  dsimp only
  split
  · exact .pure (.refl _)
  · next h2 =>
    have hxs : xs ≠ [] := fun h0 => h2 (by simp [h0])
    refine ((cut_yields eager (leastRun_pos (by omega)) hxs).mono fun _ he => he.mono h).bind fun r hr => ?_
    obtain ⟨first, rest⟩ := r
    dsimp only
    have hlt : rest.length < xs.length := hr.2
    have hw : waiting [] ++ first.elems ++ rest = first.elems ++ rest := rfl
    refine (assemble_yields hsort (leastRun_pos (by omega)) (by omega) ?_).bind fun run hrun => ?_
    · rw [hw]
      exact fun x hx => h (hr.1.subset hx)
    · rw [hw] at hrun
      have hperm := hrun.trans hr.1
      exact (settle_yields hsort fun x hx => h (hperm.subset hx)).imp fun ys hys => hys.trans hperm

end Runs

/-! Partitions. -/

theorem median_lt {xs : Array α} {a b c : Nat} (ha : a < xs.size) (hb : b < xs.size) (hc : c < xs.size) :
    median less xs a b c < xs.size := by
  unfold median
  split
  · split
    · split
      · exact hc
      · exact hb
    · exact ha
  · exact ha

theorem medianOf_lt {xs : Array α} {n a b c : Nat} (hn : 0 < n) (ha : a + n ≤ xs.size) (hb : b + n ≤ xs.size)
    (hc : c + n ≤ xs.size) : medianOf less xs n a b c < xs.size := by
  induction n using Nat.strongRecOn generalizing a b c with
  | _ n ih =>
    rw [medianOf]
    split
    · have hwithin : ∀ i, i + n ≤ xs.size →
          medianOf less xs (n / 8) i (i + 4 * (n / 8)) (i + 7 * (n / 8)) < xs.size := fun i hi =>
        ih (n / 8) (by omega) (by omega) (by omega) (by omega) (by omega)
      exact median_lt (hwithin a ha) (hwithin b hb) (hwithin c hc)
    · exact median_lt (by omega) (by omega) (by omega)

theorem pivot_lt {xs : Array α} (h : 8 ≤ xs.size) : pivot less xs < xs.size := by
  unfold pivot
  dsimp only
  split
  · exact median_lt (by omega) (by omega) (by omega)
  · exact medianOf_lt (by omega) (by omega) (by omega) (by omega)

theorem partition_perm (test : α → Bool) (place : Nat) (outcome : Bool) (xs : List α) :
    ((partition test place outcome xs).1 ++ (partition test place outcome xs).2).Perm xs := by
  unfold partition
  rw [List.partition_eq_filter_filter]
  dsimp only
  rw [← List.map_append]
  refine ((List.filter_append_perm ..).map _).trans ?_
  rw [List.zipIdx_map_fst]

theorem sortPivots_yields {whole : List α} {limit : Nat} {bound : Option α} {xs : List α} (h : xs ⊆ whole) :
    Yields (Contradicts less whole) (sortPivots less limit bound xs) (·.Perm xs) := by
  induction limit generalizing bound xs with
  | zero =>
    rw [sortPivots]
    split
    · exact (sortSmall_yields xs).mono fun _ he => he.mono h
    · exact @sortRuns_yields _ less whole .ok (fun ys _ => .pure (.refl ys)) true _ h
  | succ limit ih =>
    rw [sortPivots]
    split
    · exact (sortSmall_yields xs).mono fun _ he => he.mono h
    · next hlong =>
      have hlt : pivot less xs.toArray < xs.toArray.size := pivot_lt (by simp [smallLength] at hlong ⊢; omega)
      have hp : xs.toArray[pivot less xs.toArray]? = some xs.toArray[pivot less xs.toArray] :=
        Array.getElem?_eq_getElem hlt
      dsimp only
      rw [hp]
      dsimp only
      generalize xs.toArray[pivot less xs.toArray] = p
      have hpart := partition_perm (less · p) (pivot less xs.toArray) false xs
      have hequal := partition_perm (fun x => !less p x) (pivot less xs.toArray) true xs
      revert hpart hequal
      generalize partition (less · p) (pivot less xs.toArray) false xs = lr,
        partition (fun x => !less p x) (pivot less xs.toArray) true xs = er
      intro hpart hequal
      split
      · refine (ih fun x hx => h (hequal.subset (List.mem_append_right _ hx))).bind fun ys hys => ?_
        exact .pure ((hys.append_left _).trans hequal)
      · refine (ih fun x hx => h (hpart.subset (List.mem_append_right _ hx))).bind fun rs hrs => ?_
        refine (ih fun x hx => h (hpart.subset (List.mem_append_left _ hx))).bind fun ls hls => ?_
        exact .pure ((hls.append hrs).trans hpart)

/-- Sorting rearranges the list; it only fails if the comparison is no weak order on it. -/
theorem sort_yields (xs : List α) : Yields (Contradicts less xs) (sort less xs) (·.Perm xs) := by
  unfold sort
  split
  · exact (sorts_extend_nil xs).1
  · exact sortRuns_yields (fun ys hys => sortPivots_yields hys) _ (List.Subset.refl xs)

end Countermodels.Sort
