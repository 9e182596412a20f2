import Countermodels.Draft
import Countermodels.Proofs.Writes

/-! Writing under a deadline: what is written is given up only when the deadline has come. -/

namespace Countermodels

namespace Deadline

/-- Every question about the time is answered with no. -/
def Open (d : Deadline) : Prop := ∀ i, d.budget.answers i = false

/-- Two states of one deadline, which differ in how often it was asked about. -/
structure Same (d d' : Deadline) : Prop where
  maxTime : d'.maxTime = d.maxTime
  answers : d'.budget.answers = d.budget.answers

/-- The reason to give up: the deadline has come. -/
def Late (d : Deadline) (e : Failure) : Prop := e = d.error ∧ ∃ i, d.budget.answers i = true

variable {d d' : Deadline}

theorem Same.refl (d : Deadline) : d.Same d := ⟨rfl, rfl⟩

theorem Same.poll (h : d.Same d') : d.Same d'.poll.2 := ⟨h.maxTime, h.answers⟩

/-- When the answer is yes, the deadline has come. -/
theorem Same.late (h : d.Same d') (hpoll : d'.poll.1 = true) : d.Late d'.poll.2.error := by
  refine ⟨?_, d'.budget.polls, h.answers ▸ hpoll⟩
  show Failure.refused (.timeout d'.maxTime) = .refused (.timeout d.maxTime)
  rw [h.maxTime]

theorem Open.not_late (h : d.Open) (e : Failure) : ¬ d.Late e := by
  rintro ⟨-, i, hi⟩
  rw [h i] at hi
  cases hi

end Deadline

namespace Draft

variable {α β : Type}

theorem emit_bind (m : StateM Cnf α) (k : α → DraftM β) (d : Draft) :
    (emit m >>= k) d = k (m d.cnf).1 { d with cnf := (m d.cnf).2 } := rfl

theorem run_checkDeadline (d : Draft) : checkDeadline d =
    if d.deadline.poll.1 then .error d.deadline.poll.2.error { d with deadline := d.deadline.poll.2 }
    else .ok () { d with deadline := d.deadline.poll.2 } := rfl

theorem checkDeadline_bind {d : Draft} (h : d.deadline.poll.1 = false) (k : Unit → DraftM β) :
    (checkDeadline >>= k) d = k () { d with deadline := d.deadline.poll.2 } := by
  simp [bind, EStateM.bind, run_checkDeadline, h]

theorem checkDeadline_bind_late {d : Draft} (h : d.deadline.poll.1 = true) (k : Unit → DraftM β) :
    (checkDeadline >>= k) d = .error d.deadline.poll.2.error { d with deadline := d.deadline.poll.2 } := by
  simp [bind, EStateM.bind, run_checkDeadline, h]

/-- Under a deadline that has not come, the computation writes what `k` writes. -/
def Keeps (m : DraftM α) (k : StateM Cnf α) : Prop :=
  ∀ (D : Deadline) (d : Draft), D.Same d.deadline →
    Writes D.Late (fun _ d' => D.Same d'.deadline) m d fun d' a => (a, d'.cnf) = k d.cnf

namespace Keeps

variable {m : DraftM α} {k : StateM Cnf α} {p : α → DraftM β} {q : α → StateM Cnf β} {ι : Type} {xs : List ι}

theorem emit (k : StateM Cnf α) : Keeps (emit k) k := fun _ _ hd => ⟨hd, rfl⟩

theorem pure (a : α) : Keeps (Pure.pure a) (Pure.pure a) := fun _ _ hd => ⟨hd, rfl⟩

theorem bind (hm : Keeps m k) (hp : ∀ a, Keeps (p a) (q a)) : Keeps (m >>= p) (k >>= q) := by
  intro D d hd
  refine (hm D d hd).chain (fun a d' hd' ha => ?_) fun _ _ _ h => h
  have hrun : (k >>= q) d.cnf = q a d'.cnf := by
    show q (k d.cnf).1 (k d.cnf).2 = _
    rw [← ha]
  rw [hrun]
  exact hp a D d' hd'

/-- A question about the time writes nothing. -/
theorem check (hm : Keeps m k) : Keeps (checkDeadline >>= fun _ => m) k := by
  intro D d hd
  cases hpoll : d.deadline.poll.1 with
  | false =>
    have hnext := hm D { d with deadline := d.deadline.poll.2 } hd.poll
    rwa [Writes, ← checkDeadline_bind hpoll fun _ => m] at hnext
  | true => exact .of_error (checkDeadline_bind_late hpoll fun _ => m) (hd.late hpoll)

theorem forM {p : ι → DraftM Unit} {q : ι → StateM Cnf Unit} (h : ∀ x ∈ xs, Keeps (p x) (q x)) :
    Keeps (xs.forM p) (xs.forM q) := by
  induction xs with
  | nil => exact pure ()
  | cons x xs ih =>
    rw [List.forall_mem_cons] at h
    exact h.1.bind fun _ => ih h.2

theorem mapM {p : ι → DraftM α} {q : ι → StateM Cnf α} (h : ∀ x ∈ xs, Keeps (p x) (q x)) :
    Keeps (xs.mapM p) (xs.mapM q) := by
  induction xs with
  | nil => exact pure []
  | cons x xs ih =>
    rw [List.forall_mem_cons] at h
    rw [List.mapM_cons, List.mapM_cons]
    exact h.1.bind fun y => (ih h.2).bind fun ys => pure (y :: ys)

theorem ite {c : Prop} [Decidable c] {m : DraftM Unit} {k : StateM Cnf Unit} (h : Keeps m k) :
    Keeps (if c then m else Pure.pure ()) (if c then k else Pure.pure ()) := by
  split
  · exact h
  · exact pure ()

end Keeps

end Draft

end Countermodels
