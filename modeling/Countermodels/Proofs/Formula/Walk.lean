import Countermodels.Formula.Basic
import Mathlib

/-! Reading a formula from a list that grows while it is read. At every moment the list is what has been read, followed by
formulas that wait. A step moves the first of these to what has been read and puts its children in its place, which
changes neither the order in which everything will be read nor what that is. -/

namespace Countermodels.Formula

/-- A formula, and then its children in order, each with everything below it. -/
def preorder : Formula → List Formula
  | atom a => [atom a]
  | top => [top]
  | bot => [bot]
  | unary op a => unary op a :: a.preorder
  | binary op a b => binary op a b :: (a.preorder ++ b.preorder)

theorem preorder_eq (f : Formula) : f.preorder = f :: f.children.flatMap preorder := by
  cases f <;> simp [preorder, children]

theorem length_preorder (f : Formula) : f.preorder.length = f.size := by
  induction f with
  | atom a => rfl
  | top => rfl
  | bot => rfl
  | unary op a ih => rw [preorder, List.length_cons, ih, size]
  | binary op a b iha ihb => rw [preorder, List.length_cons, List.length_append, iha, ihb, size]

theorem length_flatMap_preorder (fs : List Formula) : (fs.flatMap preorder).length = totalSize fs := by
  induction fs with
  | nil => rfl
  | cons f fs ih => rw [List.flatMap_cons, List.length_append, length_preorder, ih, totalSize]

namespace Walk

/-- Some formulas have been read, others wait. -/
def between (read waiting : List Formula) : Walk := ⟨read ++ waiting, read.length⟩

theorem step?_between_nil (read : List Formula) : (between read []).step? = none := by
  simp [step?, between]

theorem step?_between_cons (read : List Formula) (f : Formula) (waiting : List Formula) :
    (between read (f :: waiting)).step? = some (between (read ++ [f]) (f.children ++ waiting)) := by
  simp [step?, between, List.take_length_add_append, List.drop_length_add_append]

/-- The walk after some steps, if it can go that far. -/
def steps? (w : Walk) : Nat → Option Walk
  | 0 => some w
  | n + 1 => w.step?.bind fun next => next.steps? n

/-- What has been read stays, and everything that waits will be read in order: after each number of steps the list goes on
from what has been read with formulas that have the rest of the order. -/
theorem steps?_between (read waiting : List Formula) {n : Nat} (hn : n ≤ totalSize waiting) :
    ∃ waiting', (between read waiting).steps? n = some (between (read ++ (waiting.flatMap preorder).take n) waiting') ∧
      waiting'.flatMap preorder = (waiting.flatMap preorder).drop n := by
  induction n generalizing read waiting with
  | zero => exact ⟨waiting, by simp [steps?], rfl⟩
  | succ n ih =>
    cases waiting with
    | nil => simp [totalSize] at hn
    | cons f waiting =>
      -- the children take the place of the formula in what is still to be read
      have horder : (f :: waiting).flatMap preorder = f :: (f.children ++ waiting).flatMap preorder := by
        rw [List.flatMap_cons, preorder_eq, List.flatMap_append, List.cons_append]
      have hsize : n ≤ totalSize (f.children ++ waiting) := by
        rw [← length_flatMap_preorder] at hn ⊢
        rw [horder, List.length_cons] at hn
        omega
      obtain ⟨waiting', hsteps, hrest⟩ := ih (read ++ [f]) (f.children ++ waiting) hsize
      refine ⟨waiting', ?_, ?_⟩
      · rw [steps?, step?_between_cons, Option.bind_some, hsteps, horder, List.take_succ_cons, List.append_assoc,
          List.singleton_append]
      · rw [hrest, horder, List.drop_succ_cons]

/-- The walk ends when everything that was waiting has been read. -/
theorem steps?_between_all (read waiting : List Formula) :
    (between read waiting).steps? (totalSize waiting) = some (between (read ++ waiting.flatMap preorder) []) := by
  obtain ⟨waiting', hsteps, hrest⟩ := steps?_between read waiting le_rfl
  rw [← length_flatMap_preorder, List.drop_length] at hrest
  cases waiting' with
  | nil => rw [hsteps, ← length_flatMap_preorder, List.take_length]
  | cons f waiting' => simp [preorder_eq] at hrest

theorem run_of_none {w : Walk} (h : w.step? = none) : w.run = w.formulas := by
  rw [run]
  split
  · next hstep => simp [h] at hstep
  · rfl

theorem run_of_some {w next : Walk} (h : w.step? = some next) : w.run = next.run := by
  rw [run]
  split
  · next hstep => rw [Option.some.inj (hstep.symm.trans h)]
  · next hstep => simp [h] at hstep

/-- A walk that comes to its end after some steps returns what it has there. -/
theorem run_of_steps? {w last : Walk} {n : Nat} (h : w.steps? n = some last) (hlast : last.step? = none) :
    w.run = last.formulas := by
  induction n generalizing w with
  | zero =>
    obtain rfl := Option.some.inj h
    exact run_of_none hlast
  | succ n ih =>
    obtain ⟨next, hnext, h⟩ := Option.bind_eq_some_iff.1 h
    rw [run_of_some hnext, ih h]

end Walk

theorem steps?_formula (f : Formula) : (Walk.mk [f] 0).steps? f.size = some (.between f.preorder []) := by
  have h := Walk.steps?_between_all [] [f]
  rwa [List.nil_append, List.flatMap_singleton] at h

theorem subformulas_eq_preorder (f : Formula) : f.subformulas = f.preorder := by
  rw [subformulas, Walk.run_of_steps? (steps?_formula f) (Walk.step?_between_nil _), Walk.between, List.append_nil]

end Countermodels.Formula
