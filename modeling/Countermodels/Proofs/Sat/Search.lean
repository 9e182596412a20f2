import Countermodels.Proofs.Sat.Luby
import Countermodels.Proofs.Sat.Progress

/-! The search. Every step keeps what holds during a search and raises the trail, so a round ends; it ends
with a trail that is a model, with assumptions that the clauses refute, with a restart, or because the
budget is used up. -/

namespace Countermodels.Sat

open Number

variable {Φ : List (List Lit)} {A : List Lit} {b b' : Board} {t : Trail}

theorem Board.Valid.openLevel (hv : b.Valid Φ) (hh : b.trail.head = b.trail.lits.size) :
    ({ b with trail := b.trail.openLevel } : Board).Valid Φ where
  shaped :=
    { trail := hv.shaped.trail.openLevel hh
      two_le := hv.shaped.two_le
      nodup := hv.shaped.nodup
      known := hv.shaped.known
      reason := hv.shaped.reason
      decision := fun i p hi hr => by
        have hlt : i < b.trail.lits.size := (Array.getElem?_eq_some_iff.1 hi).1
        rw [Trail.levelAt_openLevel hlt]
        exact (hv.shaped.decision i p hi hr).imp_right fun hm => Array.mem_push.2 (.inl hm) }
  sound := ⟨hv.sound.clause, hv.sound.root, hv.sound.complete⟩
  table_size := hv.table_size
  watched := hv.watched
  listed := hv.listed

/-- A decision is the first literal of a new level. -/
theorem Board.Valid.decide {l : Lit} (hv : b.Valid Φ) (hh : b.trail.head = b.trail.lits.size)
    (hl : l.var < b.trail.values.size) (hf : b.trail.valueOf l = .free) :
    (({ b with trail := b.trail.openLevel } : Board).pushed l none).Valid Φ :=
  (hv.openLevel hh).pushed hl hf (by simp) (fun _ => .inr Array.mem_push_self) fun h0 => by
    simp [Trail.openLevel, Trail.depth] at h0

theorem Grown.weighted (hg : Grown b b') (hw : b.store.Weighted) : b'.store.Weighted := fun hd => by
  obtain ⟨hstep, hclauses⟩ := hw (hg.decay ▸ hd)
  refine ⟨hg.step ▸ hstep, fun c hc => ?_⟩
  have hmem : c.activity ∈ b'.store.clauses.map Clause.activity := Array.mem_map_of_mem hc
  rw [hg.activity] at hmem
  obtain ⟨d, hd, hact⟩ := Array.mem_map.1 hmem
  exact hact ▸ hclauses d hd

/-- A conflict at the root level refutes the clauses. -/
theorem Board.Valid.refuted {id : Nat} (hv : b.Valid Φ) (h0 : b.trail.depth = 0)
    (hc : Conflict b.trail b.store.clauses id) (σ : Nat → Bool) : ¬ Models Φ σ := by
  obtain ⟨c, hlive, hall, -⟩ := hc
  refine hv.sound.conflict hlive (fun q hq => ⟨hall q hq, ?_⟩) σ
  have := hv.shaped.trail.level_le_depth (hall q hq)
  rw [Lit.var_neg] at this
  omega

/-- The assignment that the trail describes. -/
def Trail.assignment (t : Trail) (v : Nat) : Bool := t.valueOf (.positive v) = .holds

namespace Trail.Valid

variable {l : Lit} {v : Nat} (ht : t.Valid)

include ht

theorem free_var_iff (hv : v < t.values.size) : t.values[v]? = some .free ↔ ∀ l ∈ t.lits, l.var ≠ v := by
  have hvalue : t.values[v]? = some .free ↔ t.valueOf (.positive v) = .free := by
    rw [Trail.valueOf, Value.flip_eq_free, Lit.var_positive, Array.getD_eq_getD_getElem?, Array.getElem?_eq_getElem hv]
    simp
  rw [hvalue, ht.free_iff]
  constructor
  · rintro ⟨hp, hn⟩ l hl rfl
    rcases Lit.eq_or_eq_neg_of_var_eq (show l.var = (Lit.positive l.var).var by simp) with h | h
    · exact hp (h ▸ hl)
    · exact hn (h ▸ hl)
  · intro h
    exact ⟨fun hp => h _ hp (by simp), fun hn => h _ hn (by simp)⟩

theorem mem_or_mem_neg (hl : l.var < t.values.size) (hne : t.values[l.var]? ≠ some .free) :
    l ∈ t.lits ∨ l.neg ∈ t.lits := by
  have hex := (ht.free_var_iff hl).not.1 hne
  push Not at hex
  obtain ⟨m, hm, hml⟩ := hex
  rcases Lit.eq_or_eq_neg_of_var_eq hml with rfl | rfl
  · exact .inl hm
  · exact .inr hm

theorem holds_assignment (hl : l ∈ t.lits) : l.holds t.assignment = true := by
  rcases Lit.eq_or_eq_neg_of_var_eq (show l.var = (Lit.positive l.var).var by simp) with h | h
  · rw [h] at hl ⊢
    rw [Lit.holds_positive]
    exact decide_eq_true ((ht.holds_iff _).2 hl)
  · rw [h] at hl ⊢
    rw [Lit.holds_neg, Lit.holds_positive, assignment, ht.fails_iff.2 hl]
    rfl

end Trail.Valid

theorem Grown.free (hg : Grown b b') (ht : b.trail.Valid) (ht' : b'.trail.Valid) {v : Nat}
    (h : b'.trail.values[v]? = some .free) : b.trail.values[v]? = some .free := by
  have hv : v < b'.trail.values.size := (Array.getElem?_eq_some_iff.1 h).1
  rw [ht'.free_var_iff hv] at h
  rw [ht.free_var_iff (hg.values_size ▸ hv)]
  exact fun l hl => h l (hg.mem hl)

/-- When no variable is free and everything has been propagated, the trail is a model. -/
theorem Board.Valid.exists_true (hv : b.Valid Φ) (hs : Settled b.trail b.store.clauses b.trail.lits.size)
    (hall : ∀ v : Nat, b.trail.values[v]? ≠ some .free) {c : List Lit} (hc : c ∈ Φ)
    (hk : ∀ l ∈ c, l.var < b.trail.values.size) : ∃ l ∈ c, l ∈ b.trail.lits := by
  have ht := hv.shaped.trail
  have hmodel : Models Φ b.trail.assignment := by
    refine hv.sound.complete _ (fun l hl _ => ht.holds_assignment hl) fun id d hd _ => Lit.anyHolds_iff.2 ?_
    have hpos : 0 < d.lits.size := by
      have := hv.shaped.two_le id d hd
      omega
    have hfirst : d.Watches d.lits[0] := .inl (Array.getElem?_eq_getElem hpos)
    rcases ht.mem_or_mem_neg (hv.shaped.known id d hd _ hfirst.mem) (hall _) with h | h
    · exact ⟨_, Array.mem_toList_iff.2 hfirst.mem, ht.holds_assignment h⟩
    · obtain ⟨i, hi⟩ := Array.mem_iff_getElem?.1 h
      obtain ⟨m, hm, hmt, -⟩ := hs id d hd _ hfirst i (Array.getElem?_eq_some_iff.1 hi).1 hi
      exact ⟨m, Array.mem_toList_iff.2 hm, ht.holds_assignment hmt⟩
  obtain ⟨l, hl, htrue⟩ := Lit.anyHolds_iff.1 (hmodel c hc)
  refine ⟨l, hl, (ht.mem_or_mem_neg (hk l hl) (hall _)).resolve_right fun hn => ?_⟩
  have := ht.holds_assignment hn
  simp [htrue] at this

namespace LearntLimit

/-- The limit after a number of conflicts. -/
def after (o : Options) (limit : LearntLimit) (k : Nat) : LearntLimit :=
  (fun l : LearntLimit => (l.onConflict o).2)^[k] limit

theorem after_add (o : Options) (limit : LearntLimit) (j k : Nat) :
    limit.after o (j + k) = (limit.after o j).after o k := by
  rw [after, Nat.add_comm, Function.iterate_add_apply]
  rfl

end LearntLimit

namespace Solver

variable {s s' s'' : Solver}

/-- The two solvers differ in counters, limits and the budget only. -/
structure Same (s s' : Solver) : Prop where
  options : s'.options = s.options
  board : s'.board = s.board
  order : s'.order = s.order
  phases : s'.phases = s.phases
  marks : s'.marks = s.marks
  ok : s'.ok = s.ok

theorem Tables.same (h : s.Tables) (hs : s.Same s') : s'.Tables where
  phases := by rw [hs.phases, hs.board, h.phases]
  marks := by rw [hs.marks, hs.board, h.marks]
  clear := hs.marks ▸ h.clear
  order := by rw [hs.order, hs.board]; exact h.order
  free := by rw [hs.order, hs.board]; exact h.free
  weighted := hs.board ▸ h.weighted
  decay := by rw [hs.board, hs.options, h.decay]

/-- What holds of a solver while it searches under the assumptions `A`. -/
structure Searching (Φ : List (List Lit)) (A : List Lit) (s : Solver) : Prop where
  valid : s.board.Valid Φ
  tables : s.Tables
  settled : Settled s.board.trail s.board.store.clauses s.board.trail.head
  ok : s.ok = true
  guided : Guided A s.board.trail
  assumptions : ∀ p ∈ A, p.var < s.board.trail.values.size
  given : ∀ c ∈ Φ, ∀ l ∈ c, l.var < s.board.trail.values.size

theorem Searching.same (h : Searching Φ A s) (hs : s.Same s') : Searching Φ A s' where
  valid := hs.board ▸ h.valid
  tables := h.tables.same hs
  settled := hs.board ▸ h.settled
  ok := hs.ok.trans h.ok
  guided := hs.board ▸ h.guided
  assumptions := hs.board ▸ h.assumptions
  given := hs.board ▸ h.given

/-- What a search leaves alone, apart from the questions to the budget. -/
structure Carried (s s' : Solver) : Prop where
  options : s'.options = s.options
  answers : s'.budget.answers = s.budget.answers
  polls : s.budget.polls ≤ s'.budget.polls
  vars : s'.board.trail.values.size = s.board.trail.values.size
  given : s'.board.store.given.size ≤ s.board.store.given.size

theorem Carried.refl (s : Solver) : s.Carried s := ⟨rfl, rfl, Nat.le_refl _, rfl, Nat.le_refl _⟩

theorem Carried.trans (h : s.Carried s') (h' : s'.Carried s'') : s.Carried s'' where
  options := h'.options.trans h.options
  answers := h'.answers.trans h.answers
  polls := Nat.le_trans h.polls h'.polls
  vars := h'.vars.trans h.vars
  given := Nat.le_trans h'.given h.given

/-- The budget said that it is used up on the way from one solver to the other. -/
def Exhausted (s s' : Solver) : Prop :=
  ∃ i, s.budget.polls ≤ i ∧ i < s'.budget.polls ∧ s.budget.answers i = true

theorem Exhausted.of_carried (h : s.Carried s') (h' : s'.Exhausted s'') : s.Exhausted s'' := by
  obtain ⟨i, hle, hlt, hi⟩ := h'
  exact ⟨i, Nat.le_trans h.polls hle, hlt, h.answers ▸ hi⟩

theorem same_poll : s.Same s.poll.2 := ⟨rfl, rfl, rfl, rfl, rfl, rfl⟩

theorem carried_poll : s.Carried s.poll.2 := ⟨rfl, rfl, Nat.le_succ _, rfl, Nat.le_refl _⟩

theorem exhausted_poll (h : s.poll.1 = true) : s.Exhausted s.poll.2 :=
  ⟨s.budget.polls, Nat.le_refl _, Nat.lt_succ_self _, h⟩

/-- Why a step can break off: activities cannot be compared, or the cap on learnt clauses left its range. -/
def Overfull (s : Solver) (e : Fault) : Prop :=
  e = .order ∧ ¬ Scales s.options.clauseDecay ∨
  e = .overflow ∧ 1 <<< 64 ≤ Number.toWord s.limit.cap + s.board.trail.values.size

theorem Overfull.of_carried {e : Fault} (hc : s.Carried s') (hl : s'.limit = s.limit) (h : s'.Overfull e) :
    s.Overfull e := by
  rwa [Overfull, hc.options, hc.vars, hl] at h

/-- What is known when a round ends. -/
def Ended (Φ : List (List Lit)) (A : List Lit) (s s' : Solver) : RoundEnd → Prop
  | .sat => Searching Φ A s' ∧ (∀ v : Nat, s'.board.trail.values[v]? ≠ some .free) ∧
      (∀ c ∈ Φ, ∃ l ∈ c, l ∈ s'.board.trail.lits) ∧ ∀ p ∈ A, p ∈ s'.board.trail.lits
  | .unsat => (Searching Φ A s' ∨ s'.Tables ∧ s'.ok = false ∧ s'.board.trail.depth = 0 ∧ ∀ σ, ¬ Models Φ σ) ∧
      ∀ σ, Models Φ σ → ¬ ∀ p ∈ A, p.holds σ = true
  | .restart => Searching Φ A s'
  | .interrupted => Searching Φ A s' ∧ s.Exhausted s'

theorem Ended.of_carried {e : RoundEnd} (hc : s.Carried s') (h : Ended Φ A s' s'' e) : Ended Φ A s s'' e := by
  cases e with
  | interrupted => exact ⟨h.1, h.2.of_carried hc⟩
  | _ => exact h

/-- What is known after a step: the search goes on with a higher trail, or the round has ended. -/
def Stepped (Φ : List (List Lit)) (A : List Lit) (s : Solver) : Option RoundEnd → Solver → Prop
  | none, s' => s.Carried s' ∧ Searching Φ A s' ∧ s.board.trail.Before s'.board.trail
  | some e, s' => s.Carried s' ∧ Ended Φ A s s' e

namespace Searching

variable (h : Searching Φ A s)

include h

theorem grown_tables (hg : Grown s.board b') (hv : b'.Valid Φ) : ({ s with board := b' } : Solver).Tables :=
  h.tables.update hg.values_size h.tables.order
    (fun v hv' => h.tables.free v (hg.free h.valid.shaped.trail hv.shaped.trail hv')) (hg.weighted h.tables.weighted)
    hg.decay

theorem grown (hg : Grown s.board b') (hv : b'.Valid Φ) (hs : Settled b'.trail b'.store.clauses b'.trail.head) :
    Searching Φ A { s with board := b' } where
  valid := hv
  tables := h.grown_tables hg hv
  settled := hs
  ok := h.ok
  guided := h.guided.grown hg h.valid.shaped.trail hv.shaped.trail
  assumptions := hg.values_size ▸ h.assumptions
  given := hg.values_size ▸ h.given

/-- Dropping clauses does not disturb the search. -/
theorem lightened {store : ClauseStore} (hl : Lightened Φ s.board store) :
    Searching Φ A { s with board := { s.board with store } } where
  valid := hl.valid
  tables := h.tables.update rfl h.tables.order h.tables.free (hl.weighted h.tables.weighted) hl.decay
  settled := hl.settled _ h.settled
  ok := h.ok
  guided := h.guided
  assumptions := h.assumptions
  given := h.given

/-- Going back to the root level. -/
theorem backtrack_zero : Gives (s.backtrack 0) fun s' =>
    Searching Φ A s' ∧ s.Carried s' ∧ s'.board.trail.depth = 0 ∧ s'.model = s.model := by
  by_cases h0 : s.board.trail.depth = 0
  · exact .of_eq (backtrack_eq_self (Nat.le_of_eq h0)) ⟨h, .refl s, h0, rfl⟩
  obtain ⟨start, hcut⟩ : ∃ start, s.board.trail.marks[0]? = some start :=
    ⟨_, Array.getElem?_eq_getElem (Nat.pos_of_ne_zero h0)⟩
  have ht := h.valid.shaped.trail
  refine (backtrack_gives h.valid h.tables hcut).imp fun s' hs' => ?_
  obtain ⟨hv', ht', htrail, hsame⟩ := hs'
  have hsize : s'.board.trail.values.size = s.board.trail.values.size := by rw [htrail, Trail.size_values_cutAt]
  have hstart : start ≤ s.board.trail.head := ht.marks_le start (Array.mem_of_getElem? hcut)
  refine ⟨⟨hv', ht', ?_, ?_, ?_, ?_, ?_⟩, ⟨?_, ?_, ?_, hsize, ?_⟩, ?_, ?_⟩
  · rw [hsame]
    exact h.settled.cutAt hcut ht hstart
  · rw [hsame]; exact h.ok
  · rw [htrail]; exact h.guided.cutAt ht hcut
  · rw [hsize]; exact h.assumptions
  · rw [hsize]; exact h.given
  · rw [hsame]
  · rw [hsame]
  · rw [hsame]
  · rw [hsame]
  · rw [htrail, Trail.depth_cutAt hcut]
  · rw [hsame]

/-- A level that is opened for an assumption that holds. -/
theorem openLevel {p : Lit} (hh : s.board.trail.head = s.board.trail.lits.size)
    (hp : A[s.board.trail.depth]? = some p) (hmem : p ∈ s.board.trail.lits) :
    Searching Φ A { s with board := { s.board with trail := s.board.trail.openLevel } } where
  valid := h.valid.openLevel hh
  tables := h.tables.update rfl h.tables.order h.tables.free h.tables.weighted rfl
  settled := h.settled
  ok := h.ok
  guided := h.guided.openLevel h.valid.shaped.trail hp hmem
  assumptions := h.assumptions
  given := h.given

/-- A decision, for which its variable may leave the order. -/
theorem decide_gives {l : Lit} {order : VarOrder} (hh : s.board.trail.head = s.board.trail.lits.size)
    (hl : l.var < s.board.trail.values.size) (hf : s.board.trail.valueOf l = .free)
    (hA : ∀ p, A[s.board.trail.depth]? = some p → p = l) (ho : order.Valid s.board.trail.values.size)
    (hothers : ∀ v ≠ l.var, s.board.trail.values[v]? = some .free → order.Has v) :
    Gives (decide { s with order } l) fun s' =>
      s.Carried s' ∧ Searching Φ A s' ∧ s.board.trail.Before s'.board.trail := by
  have hv := h.valid.decide hh hl hf
  have ht := h.valid.shaped.trail.openLevel hh
  have hsize := Board.size_values_pushed (b := { s.board with trail := s.board.trail.openLevel }) (p := l) (r := none)
  rw [decide, Board.assign_eq (b := { s.board with trail := s.board.trail.openLevel }) hl hf, ok_bind]
  refine .pure ⟨⟨rfl, rfl, Nat.le_refl _, hsize, Nat.le_refl _⟩, ⟨hv, ?_, ?_, h.ok, ?_, ?_, ?_⟩, ?_⟩
  · refine h.tables.update hsize ho (fun v hfree => ?_) h.tables.weighted rfl
    obtain ⟨hne, hold⟩ := Trail.free_of_pushed hfree
    exact hothers v hne hold
  · exact h.settled.pushed (t := s.board.trail.openLevel) hl hf ht ht.head_le
  · exact h.guided.decide h.valid.shaped.trail hh hl hf hA
  · exact hsize ▸ h.assumptions
  · exact hsize ▸ h.given
  · exact Trail.before_openLevel.trans Trail.before_pushed

end Searching

/-- What is known when the assumptions that hold have got their levels. -/
structure Followed (Φ : List (List Lit)) (A : List Lit) (s : Solver) (guess : Guess) (t : Trail) : Prop where
  searching : Searching Φ A { s with board := { s.board with trail := t } }
  head : t.head = t.lits.size
  lits : t.lits = s.board.trail.lits
  values : t.values = s.board.trail.values
  raised : ∀ t', t.Before t' → s.board.trail.Before t'
  guess : match guess with
    | .branch => A.length ≤ t.depth
    | .assume p => A[t.depth]? = some p ∧ t.valueOf p = .free
    | .refuted => ∃ p, A[t.depth]? = some p ∧ p.neg ∈ t.lits

theorem Searching.follow_gives {ps : List Lit} (h : Searching Φ A s) (hh : s.board.trail.head = s.board.trail.lits.size)
    (hps : A.drop s.board.trail.depth = ps) :
    Gives (follow ps s.board.trail) fun r => Followed Φ A s r.1 r.2 := by
  induction ps generalizing s with
  | nil =>
    exact .ok ⟨h, hh, rfl, rfl, fun _ => id, List.drop_eq_nil_iff.1 hps⟩
  | cons p ps ih =>
    have hp : A[s.board.trail.depth]? = some p := by
      rw [← List.head?_drop, hps, List.head?_cons]
    have hv : p.var < s.board.trail.values.size := h.assumptions p (List.mem_of_getElem? hp)
    have ht := h.valid.shaped.trail
    rw [follow, Trail.value_eq hv, ok_bind]
    split
    · next hval =>
      have hdepth : s.board.trail.openLevel.depth = s.board.trail.depth + 1 := by simp [Trail.openLevel, Trail.depth]
      refine (ih (h.openLevel hh hp ((ht.holds_iff p).1 hval)) hh ?_).imp fun r hr => ?_
      · show A.drop s.board.trail.openLevel.depth = ps
        rw [hdepth, ← List.tail_drop, hps, List.tail_cons]
      · exact ⟨hr.searching, hr.head, hr.lits, hr.values, fun t' ht' => Trail.before_openLevel.trans (hr.raised t' ht'),
          hr.guess⟩
    · next hval => exact .pure ⟨h, hh, rfl, rfl, fun _ => id, p, hp, ht.fails_iff.1 hval⟩
    · next hval => exact .pure ⟨h, hh, rfl, rfl, fun _ => id, hp, hval⟩

/-- Branching after the budget was asked, or was not. -/
theorem Searching.pick_gives {s₁ : Solver} {expired : Bool} (h : Searching Φ A s)
    (hh : s.board.trail.head = s.board.trail.lits.size) (hd : A.length ≤ s.board.trail.depth) (hsame : s.Same s₁)
    (hcarried : s.Carried s₁) (hex : expired = true → s.Exhausted s₁) :
    Gives (do
      if expired then return (some RoundEnd.interrupted, s₁)
      let (picked, order) ← s₁.order.pick s₁.board.trail.values
      let s := { s₁ with order }
      match picked with
      | none => return (some .sat, s)
      | some v => return (none, ← s.decide (.ofVar v (← Table.read s.phases v))) : Except Fault (Option RoundEnd × Solver))
      fun r => Stepped Φ A s r.1 r.2 := by
  have h₁ := h.same hsame
  have hb : s₁.board = s.board := hsame.board
  split
  · exact .pure ⟨hcarried, h₁, hex ‹_›⟩
  refine (VarOrder.pick_gives h₁.tables.order rfl).bind fun r hr => ?_
  obtain ⟨picked, order⟩ := r
  cases picked with
  | none =>
    obtain ⟨horder, hnone⟩ := hr
    have hall : ∀ v : Nat, s₁.board.trail.values[v]? ≠ some .free := fun v hv => hnone v (h₁.tables.free v hv) hv
    have hsettled : Settled s₁.board.trail s₁.board.store.clauses s₁.board.trail.lits.size := by
      rw [← (hb ▸ hh : s₁.board.trail.head = s₁.board.trail.lits.size)]
      exact h₁.settled
    refine .pure ⟨hcarried.trans ⟨rfl, rfl, Nat.le_refl _, rfl, Nat.le_refl _⟩, ?_, hall, ?_, ?_⟩
    · exact ⟨h₁.valid, h₁.tables.update rfl horder (fun v hv => absurd hv (hall v)) h₁.tables.weighted rfl,
        h₁.settled, h₁.ok, h₁.guided, h₁.assumptions, h₁.given⟩
    · exact fun c hc => h₁.valid.exists_true hsettled hall hc (h₁.given c hc)
    · intro p hp
      obtain ⟨k, hk⟩ := List.mem_iff_getElem?.1 hp
      have hlt : k < A.length := (List.getElem?_eq_some_iff.1 hk).1
      exact (h₁.guided.assumed k p hk (by rw [hb]; omega)).1
  | some v =>
    obtain ⟨horder, hv, hfree, hothers⟩ := hr
    have hphase : v < s₁.phases.size := h₁.tables.phases ▸ hv
    have hvar : (Lit.ofVar v s₁.phases[v]).var = v := Lit.var_ofVar ..
    have hval : s₁.board.trail.valueOf (.ofVar v s₁.phases[v]) = .free := by
      rw [Trail.valueOf, Value.flip_eq_free, hvar, Array.getD_eq_getD_getElem?, hfree]
      rfl
    have hA : ∀ p, A[s₁.board.trail.depth]? = some p → p = .ofVar v s₁.phases[v] := fun p hp => by
      have := (List.getElem?_eq_some_iff.1 hp).1
      rw [hb] at this
      omega
    dsimp only
    rw [Table.read_of_lt hphase, ok_bind]
    refine (h₁.decide_gives (hb ▸ hh) (by rw [hvar]; exact hv) hval hA horder ?_).bind fun s₂ hs₂ => ?_
    · intro u hu hufree
      rw [hvar] at hu
      exact (hothers u (h₁.tables.free u hufree) hufree).resolve_left hu
    · exact .pure ⟨hcarried.trans hs₂.1, hs₂.2.1, hb ▸ hs₂.2.2⟩

theorem Searching.branch_gives (h : Searching Φ A s) (hh : s.board.trail.head = s.board.trail.lits.size)
    (hd : A.length ≤ s.board.trail.depth) : Gives s.branch fun r => Stepped Φ A s r.1 r.2 := by
  rw [branch]
  dsimp only
  split
  · exact h.pick_gives hh hd ⟨rfl, rfl, rfl, rfl, rfl, rfl⟩ ⟨rfl, rfl, Nat.le_succ _, rfl, Nat.le_refl _⟩
      fun he => exhausted_poll (s := s) he
  · refine h.pick_gives hh hd ⟨rfl, rfl, rfl, rfl, rfl, rfl⟩ ⟨rfl, rfl, Nat.le_refl _, rfl, Nat.le_refl _⟩ fun he => ?_
    cases he

theorem Searching.learn_gives {id : Nat} (h : Searching Φ A s) (hg : Grown s.board b') (hv : b'.Valid Φ)
    (hs : Settled b'.trail b'.store.clauses b'.trail.levelStart) (hd : 0 < b'.trail.depth)
    (hc : Conflict b'.trail b'.store.clauses id) (s₁ : Solver) (hsame : ({ s with board := b' } : Solver).Same s₁)
    (hbudget : s₁.budget = s.budget) :
    Gives (s₁.learn id) fun s' => s.Carried s' ∧ Searching Φ A s' ∧
      s.board.trail.Before s'.board.trail := by
  have hb : s₁.board = b' := hsame.board
  have ht := hv.shaped.trail
  have hguided : Guided A b'.trail := h.guided.grown hg h.valid.shaped.trail ht
  refine (Solver.learn_gives (hb ▸ hv) ((h.grown_tables hg hv).same hsame) (hb ▸ hs) (hb ▸ hd) (hb ▸ hc)).imp
    fun s' hs' => ?_
  obtain ⟨hv', ht', hs', hframed, level, start, u, reason, hcut, hu, hfree, htrail, hreason⟩ := hs'
  rw [hb] at hcut hu hfree htrail
  have hsize : s'.board.trail.values.size = s.board.trail.values.size := by
    rw [htrail, ← hg.values_size]
    exact (Board.size_values_pushed (b := { b' with trail := b'.trail.cutAt level start })).trans Trail.size_values_cutAt
  refine ⟨⟨?_, ?_, ?_, hsize, ?_⟩, ⟨hv', ht', hs', ?_, ?_, ?_, ?_⟩, ?_⟩
  · exact hframed.options.trans hsame.options
  · rw [hframed.budget, hbudget]
  · rw [hframed.budget, hbudget]
  · rw [hframed.given, hb, hg.given]
  · exact hframed.ok.trans (hsame.ok.trans h.ok)
  · rw [htrail]
    refine (hguided.cutAt ht hcut).pushed (ht.cutAt hcut) (by simpa using hu) hfree fun hpos => hreason ?_
    rwa [Trail.depth_cutAt hcut] at hpos
  · exact hsize ▸ h.assumptions
  · exact hsize ▸ h.given
  · rw [htrail]
    exact (Trail.before_cutAt_pushed ht hcut).of_grown hg

theorem Searching.simplify_gives (h : Searching Φ A s) : Gives s.simplify fun s' =>
    Searching Φ A s' ∧ s.Carried s' ∧ s'.board.trail = s.board.trail ∧ s'.limit = s.limit := by
  unfold simplify
  dsimp only
  split
  · next h0 =>
    refine (Countermodels.Sat.simplify_gives h.valid h0.1).bind fun store hstore => ?_
    exact .pure ⟨(h.lightened hstore).same ⟨rfl, rfl, rfl, rfl, rfl, rfl⟩,
      ⟨rfl, rfl, Nat.le_refl _, rfl, hstore.given⟩, rfl, rfl⟩
  · exact .pure ⟨h, .refl s, rfl, rfl⟩

theorem Searching.reduce_yields (h : Searching Φ A s) : Yields s.Overfull s.reduce fun s' =>
    Searching Φ A s' ∧ s.Carried s' ∧ s'.board.trail = s.board.trail := by
  unfold reduce
  have hallowed : Yields s.Overfull (s.limit.allowed s.board.trail.lits.size) fun _ => True := by
    unfold LearntLimit.allowed
    dsimp only
    split
    · trivial
    · next hfull =>
      have hsize := h.valid.shaped.trail.size_le
      exact .inr ⟨rfl, by omega⟩
  refine hallowed.bind fun total _ => ?_
  split
  · refine ((Countermodels.Sat.reduce_yields h.valid h.tables.weighted).mono fun e he => ?_).bind fun store hstore => ?_
    · exact .inl ⟨he.1, h.tables.decay ▸ he.2⟩
    · exact .pure ⟨h.lightened hstore, ⟨rfl, rfl, Nat.le_refl _, rfl, hstore.given⟩, rfl⟩
  · exact .pure ⟨h, .refl s, rfl⟩

theorem Searching.step_yields {allowance found : Nat} (h : Searching Φ A s) :
    Yields s.Overfull (s.step allowance A found) fun r => Stepped Φ A s r.1 r.2.2 := by
  unfold step
  refine (Yields.of_gives (propagate_gives h.valid h.settled)).bind fun r hr => ?_
  obtain ⟨conflict, b⟩ := r
  obtain ⟨hg, hv, hhead, hend⟩ := hr
  dsimp only at hg hv hhead hend ⊢
  cases conflict with
  | some id =>
    obtain ⟨hs, hc⟩ := hend
    dsimp only
    split
    · next h0 =>
      have hno : ∀ σ, ¬ Models Φ σ := hv.refuted h0 hc
      refine .pure ⟨⟨rfl, rfl, Nat.le_refl _, hg.values_size, hg.given ▸ Nat.le_refl _⟩, .inr ⟨?_, rfl, h0, hno⟩,
        fun σ hσ => (hno σ hσ).elim⟩
      obtain ⟨h1, h2, h3, h4, h5, h6, h7⟩ := h.grown_tables hg hv
      exact ⟨h1, h2, h3, h4, h5, h6, h7⟩
    · next h0 =>
      refine (Yields.of_gives (h.learn_gives hg hv hs (Nat.pos_of_ne_zero h0) hc
        { s with board := b, conflicts := s.conflicts + 1 } ⟨rfl, rfl, rfl, rfl, rfl, rfl⟩ rfl)).bind fun s₁ hs₁ => ?_
      obtain ⟨hcarried, hsearch, hraise⟩ := hs₁
      have hcarried' := hcarried.trans carried_poll
      have hsearch' := hsearch.same same_poll
      refine .pure ?_
      dsimp only
      split
      · next hex => exact ⟨hcarried', hsearch', (exhausted_poll hex).of_carried hcarried⟩
      · exact ⟨hcarried', hsearch', hraise⟩
  | none =>
    have h₁ := h.grown hg hv (hhead ▸ hend)
    have hc₁ : s.Carried { s with board := b } :=
      ⟨rfl, rfl, Nat.le_refl _, hg.values_size, hg.given ▸ Nat.le_refl _⟩
    dsimp only
    split
    · refine (Yields.of_gives h₁.backtrack_zero).bind fun s₂ hs₂ => ?_
      exact .pure ⟨hc₁.trans hs₂.2.1, hs₂.1⟩
    refine (Yields.of_gives h₁.simplify_gives).bind fun s₂ hs₂ => ?_
    obtain ⟨h₂, hc₂, ht₂, hl₂⟩ := hs₂
    refine (h₂.reduce_yields.mono fun e he => he.of_carried (hc₁.trans hc₂) hl₂).bind fun s₃ hs₃ => ?_
    obtain ⟨h₃, hc₃, ht₃⟩ := hs₃
    have ht₃ : s₃.board.trail = b.trail := ht₃.trans ht₂
    refine (Yields.of_gives (h₃.follow_gives (by rw [ht₃]; exact hhead) rfl)).bind fun r hr => ?_
    obtain ⟨guess, t⟩ := r
    have hc₄ : s.Carried { s₃ with board := { s₃.board with trail := t } } :=
      ((hc₁.trans hc₂).trans hc₃).trans ⟨rfl, rfl, Nat.le_refl _, by rw [hr.values], Nat.le_refl _⟩
    have hraise : ∀ t', t.Before t' → s.board.trail.Before t' := fun t' ht' =>
      Trail.Before.of_grown hg (ht₃ ▸ hr.raised t' ht')
    obtain ⟨h₄, hhead₄, -, hvalues, -, hguess⟩ := hr
    cases guess with
    | refuted =>
      obtain ⟨p, hp, hneg⟩ := hguess
      refine .pure ⟨hc₄, .inl h₄, fun σ hσ hA => ?_⟩
      have hd : t.depth ≤ A.length := Nat.le_of_lt (List.getElem?_eq_some_iff.1 hp).1
      have := h₄.guided.follows h₄.valid.shaped h₄.valid.sound hd hσ hA _ hneg
      simp [hA p (List.mem_of_getElem? hp)] at this
    | assume p =>
      obtain ⟨hp, hfree⟩ := hguess
      refine (Yields.of_gives (h₄.decide_gives hhead₄ (h₄.assumptions p (List.mem_of_getElem? hp)) hfree
        (fun q hq => Option.some.inj (hq.symm.trans hp)) h₄.tables.order fun v _ hv => h₄.tables.free v hv)).bind
        fun s₅ hs₅ => ?_
      exact .pure ⟨hc₄.trans hs₅.1, hs₅.2.1, hraise _ hs₅.2.2⟩
    | branch =>
      refine (Yields.of_gives (h₄.branch_gives hhead₄ hguess)).bind fun r hr => ?_
      obtain ⟨result, s₅⟩ := r
      cases result with
      | none => exact .pure ⟨hc₄.trans hr.1, hr.2.1, hraise _ hr.2.2⟩
      | some e => exact .pure ⟨hc₄.trans hr.1, hr.2.of_carried hc₄⟩

/-- The course of a search under the assumptions `A` that starts from `s`: after a number of restarts, and after a
number of conflicts since the last of them, the solver is about to take a step. -/
inductive Searches (A : List Lit) (s : Solver) : Nat → Nat → Solver → Prop
  | start {s₁ s₂ : Solver} (hok : s.ok = true)
      (hvars : ({ s with model := #[] } : Solver).ensureVars (Lit.span A) = .ok s₁)
      (hpoll : ({ s₁ with limit := .start s₁.options s₁.board.store.given.size } : Solver).poll = (false, s₂)) :
      Searches A s 0 0 s₂
  | step {restarts found found' allowance : Nat} {s₁ s₂ : Solver} (h : Searches A s restarts found s₁)
      (hallowance : s₁.options.allowance restarts = .ok allowance)
      (hstep : s₁.step allowance A found = .ok (none, found', s₂)) : Searches A s restarts found' s₂
  | restart {restarts found found' allowance : Nat} {s₁ s₂ s₃ : Solver} (h : Searches A s restarts found s₁)
      (hallowance : s₁.options.allowance restarts = .ok allowance)
      (hstep : s₁.step allowance A found = .ok (some .restart, found', s₂))
      (hpoll : ({ s₂ with restarts := s₂.restarts + 1 } : Solver).poll = (false, s₃)) :
      Searches A s (restarts + 1) 0 s₃

/-- The search of a solver under the assumptions `A` comes to a point where the machine cannot follow: it has made as
many restarts as a word of 32 bits can count, or the cap on learnt clauses has come so near to the largest word that the
variables carry it beyond. -/
def Overworked (A : List Lit) (s : Solver) : Prop :=
  ∃ restarts found s', Searches A s restarts found s' ∧
    (Luby.wordLimit ≤ restarts + 1 ∨ 1 <<< 64 ≤ Number.toWord s'.limit.cap + s'.board.trail.values.size)

/-- Why the search of a solver can break off: activities cannot be compared, which takes a factor that is not a positive
finite number, or the solver is overworked. -/
def Breaks (A : List Lit) (s : Solver) (e : Fault) : Prop :=
  e = .order ∧ ¬ Scales s.options.clauseDecay ∨ e = .overflow ∧ s.Overworked A

variable {s₀ : Solver} {restarts found : Nat}

theorem Overfull.breaks {e : Fault} (h : s.Overfull e) (hs : Searches A s₀ restarts found s)
    (ho : s.options = s₀.options) : s₀.Breaks A e :=
  h.imp (fun h => ⟨h.1, ho ▸ h.2⟩) fun h => ⟨h.1, restarts, found, s, hs, .inr h.2⟩

/-- The search of `s₀` goes on from `s` with its next round, if the budget is not used up. -/
def Resumes (A : List Lit) (s₀ : Solver) (restarts : Nat) (s : Solver) : Prop :=
  ∀ s', s.poll = (false, s') → Searches A s₀ restarts 0 s'

/-- Where the search of `s₀` has come to when the steps of a round have led to `s`. -/
def Leads (A : List Lit) (s₀ : Solver) (restarts found : Nat) (s : Solver) : Option RoundEnd → Prop
  | none => Searches A s₀ restarts found s
  | some .restart => Resumes A s₀ (restarts + 1) { s with restarts := s.restarts + 1 }
  | some _ => True

theorem Searches.leads {allowance : Nat} {r : Option RoundEnd × Nat × Solver} (hs : Searches A s₀ restarts found s)
    (ha : s.options.allowance restarts = .ok allowance) (hstep : s.step allowance A found = .ok r) :
    Leads A s₀ restarts r.2.1 r.2.2 r.1 := by
  obtain ⟨_ | e, found', s'⟩ := r
  · exact hs.step ha hstep
  · cases e with
    | restart => exact fun s'' hpoll => hs.restart ha hstep hpoll
    | _ => trivial

/-- A step is one of the course of a search. -/
theorem Searching.step_leads {allowance : Nat} (h : Searching Φ A s) (hs : Searches A s₀ restarts found s)
    (ho : s.options = s₀.options) (ha : s.options.allowance restarts = .ok allowance) :
    Yields (s₀.Breaks A) (s.step allowance A found) fun r =>
      Stepped Φ A s r.1 r.2.2 ∧ Leads A s₀ restarts r.2.1 r.2.2 r.1 := by
  have hstepped : Yields s.Overfull (s.step allowance A found) fun r => Stepped Φ A s r.1 r.2.2 := h.step_yields
  cases hstep : s.step allowance A found with
  | error e =>
    rw [hstep] at hstepped
    exact Overfull.breaks hstepped hs ho
  | ok r =>
    rw [hstep] at hstepped
    exact ⟨hstepped, hs.leads ha hstep⟩

/-- Steps raise the progress of the trail one by one. -/
theorem Searching.steps_yields {allowance count : Nat} (h : Searching Φ A s) (hs : Searches A s₀ restarts found s)
    (ho : s.options = s₀.options) (ha : s.options.allowance restarts = .ok allowance) :
    Yields (s₀.Breaks A) (s.steps allowance A count found) fun r => s.Carried r.2.2 ∧
      Leads A s₀ restarts r.2.1 r.2.2 r.1 ∧ match r.1 with
        | none => Searching Φ A r.2.2 ∧
            s.board.trail.progress A.length + count ≤ r.2.2.board.trail.progress A.length
        | some e => Ended Φ A s r.2.2 e := by
  induction count generalizing s found with
  | zero => exact .pure ⟨.refl s, hs, h, Nat.le_refl _⟩
  | succ count ih =>
    unfold steps
    refine (h.step_leads hs ho ha).bind fun r hr => ?_
    obtain ⟨result, found₁, s₁⟩ := r
    obtain ⟨hstepped, hleads⟩ := hr
    cases result with
    | some e => exact .pure ⟨hstepped.1, hleads, hstepped.2⟩
    | none =>
      obtain ⟨hc, h₁, hbefore⟩ := hstepped
      have hlt := hbefore.progress_lt h.valid.shaped.trail h.guided h₁.valid.shaped.trail h₁.guided hc.vars
      refine (ih h₁ hleads (hc.options.trans ho) (hc.options.symm ▸ ha)).imp fun r hr => ?_
      obtain ⟨result, found₂, s₂⟩ := r
      obtain ⟨hc₂, hleads₂, hend⟩ := hr
      refine ⟨hc.trans hc₂, hleads₂, ?_⟩
      cases result with
      | some e => exact hend.of_carried hc
      | none =>
        have hrest := hend.2
        exact ⟨hend.1, by omega⟩

/-- The bound of a round is never reached. -/
theorem Searching.roundWithin_yields {allowance fuel : Nat} (h : Searching Φ A s) (hs : Searches A s₀ restarts found s)
    (ho : s.options = s₀.options) (ha : s.options.allowance restarts = .ok allowance)
    (hfuel : roundBound s.board.trail.values.size A.length ≤ s.board.trail.progress A.length + fuel) :
    Yields (s₀.Breaks A) (s.roundWithin allowance A fuel found) fun r =>
      s.Carried r.2 ∧ (∃ found', Leads A s₀ restarts found' r.2 (some r.1)) ∧ Ended Φ A s r.2 r.1 := by
  induction fuel generalizing s found with
  | zero =>
    have := h.valid.shaped.trail.progress_lt h.guided
    omega
  | succ fuel ih =>
    unfold roundWithin
    refine (h.steps_yields hs ho ha).bind fun r hr => ?_
    obtain ⟨result, found₁, s₁⟩ := r
    obtain ⟨hc, hleads, hend⟩ := hr
    cases result with
    | some e => exact .pure ⟨hc, ⟨_, hleads⟩, hend⟩
    | none =>
      obtain ⟨h₁, hle⟩ := hend
      have h₁ : Searching Φ A s₁ := h₁
      have hsize : s₁.board.trail.values.size = s.board.trail.values.size := hc.vars
      dsimp only [stride] at hle
      refine (ih h₁ hleads (hc.options.trans ho) (hc.options.symm ▸ ha) (by rw [hsize]; omega)).imp fun r hr => ?_
      exact ⟨hc.trans hr.1, hr.2.1, hr.2.2.of_carried hc⟩

theorem Searching.round_yields {allowance : Nat} (h : Searching Φ A s) (hs : Searches A s₀ restarts 0 s)
    (ho : s.options = s₀.options) (ha : s.options.allowance restarts = .ok allowance) :
    Yields (s₀.Breaks A) (s.round allowance A) fun r =>
      s.Carried r.2 ∧ (∃ found', Leads A s₀ restarts found' r.2 (some r.1)) ∧ Ended Φ A s r.2 r.1 := by
  rw [round, if_pos h.ok]
  exact h.roundWithin_yields hs ho ha (Nat.le_add_left ..)

end Solver

/-- The number of conflicts allowed before a restart fails only by leaving its range, after that many restarts. -/
theorem Options.allowance_yields (o : Options) (restarts : Nat) :
    Yields (fun e => e = .overflow ∧ Luby.wordLimit ≤ restarts + 1) (o.allowance restarts) fun _ => True := by
  unfold allowance
  split
  · refine Yields.bind (P := fun _ => True) (Yields.bind (P := fun _ => True) ?_ fun _ _ => .pure trivial)
      fun _ _ => .pure trivial
    by_cases hfew : restarts % Luby.wordLimit + 1 < Luby.wordLimit
    · exact .of_gives (Luby.exponent_gives hfew)
    · have hle := Nat.mod_le restarts Luby.wordLimit
      rw [Luby.exponent, if_pos (Nat.not_lt.1 hfew)]
      exact ⟨rfl, by omega⟩
  · exact .pure trivial

namespace Solver

variable {s s' s₀ : Solver} {restarts : Nat}

/-- What an answer says when the search under the assumptions `A` stops. -/
def Answered (Φ : List (List Lit)) (A : List Lit) (s s' : Solver) : Answer → Prop
  | .sat => Searching Φ A s' ∧ (∀ v < s'.board.trail.values.size, s'.value (.positive v) ≠ .free) ∧
      (∀ c ∈ Φ, ∃ l ∈ c, s'.value l = .holds) ∧ ∀ p ∈ A, s'.value p = .holds
  | .unsat => Ended Φ A s s' .unsat
  | .unknown => Searching Φ A s' ∧ s.Exhausted s'

theorem Answered.of_carried {s'' : Solver} {a : Answer} (hc : s.Carried s') (h : Answered Φ A s' s'' a) :
    Answered Φ A s s'' a := by
  cases a with
  | unknown => exact ⟨h.1, h.2.of_carried hc⟩
  | _ => exact h

/-- The values of a trail that is a model become the answer. -/
theorem Ended.answered (h : Ended Φ A s s' .sat) : Answered Φ A s { s' with model := s'.board.trail.values } .sat := by
  obtain ⟨hsearch, hall, hclauses, hassumed⟩ := h
  have hvalue : ∀ l ∈ s'.board.trail.lits, s'.board.trail.valueOf l = .holds := fun l =>
    (hsearch.valid.shaped.trail.holds_iff l).2
  refine ⟨hsearch.same ⟨rfl, rfl, rfl, rfl, rfl, rfl⟩, fun v hv hfree => ?_, fun c hc => ?_, fun p hp => ?_⟩
  · have hfree : s'.board.trail.valueOf (.positive v) = .free := hfree
    have hv : v < s'.board.trail.values.size := hv
    rw [Trail.valueOf, Value.flip_eq_free, Lit.var_positive, Array.getD_eq_getD_getElem?,
      Array.getElem?_eq_getElem hv] at hfree
    exact hall v (by rw [Array.getElem?_eq_getElem hv]; exact congrArg some hfree)
  · obtain ⟨l, hl, hmem⟩ := hclauses c hc
    exact ⟨l, hl, hvalue l hmem⟩
  · exact hvalue p (hassumed p hp)

/-- Rounds come to an answer before restarts can no longer be counted, or the search breaks off. -/
theorem Searching.rounds_yields {fuel : Nat} (h : Searching Φ A s) (hr : Resumes A s₀ restarts s)
    (ho : s.options = s₀.options) (hlast : restarts ≠ 0 → ∃ found s', Searches A s₀ (restarts - 1) found s')
    (hfuel : Luby.wordLimit < restarts + fuel) :
    Yields (s₀.Breaks A) (rounds A fuel restarts s) fun r => s.Carried r.2 ∧ Answered Φ A s r.2 r.1 := by
  induction fuel generalizing s restarts with
  | zero =>
    obtain ⟨found, s', hs⟩ := hlast (by omega)
    exact .inr ⟨rfl, restarts - 1, found, s', hs, .inl (by omega)⟩
  | succ fuel ih =>
    unfold rounds
    have hp : Searching Φ A s.poll.2 := h.same same_poll
    dsimp only
    split
    · next hex => exact .pure ⟨carried_poll, hp, exhausted_poll hex⟩
    next hopen =>
    have hs : Searches A s₀ restarts 0 s.poll.2 := hr _ (Prod.ext (by simpa using hopen) rfl)
    have hallowance := s.poll.2.options.allowance_yields restarts
    cases ha : s.poll.2.options.allowance restarts with
    | error e =>
      rw [ha] at hallowance
      exact .inr ⟨hallowance.1, restarts, 0, _, hs, .inl hallowance.2⟩
    | ok allowance =>
      rw [ok_bind]
      refine (hp.round_yields hs ho ha).bind fun r hround => ?_
      obtain ⟨result, s₁⟩ := r
      obtain ⟨hc₁, ⟨found, hleads⟩, hend⟩ := hround
      have hc : s.Carried s₁ := carried_poll.trans hc₁
      have hend : Ended Φ A s s₁ result := hend.of_carried carried_poll
      cases result with
      | sat => exact .pure ⟨⟨hc.options, hc.answers, hc.polls, hc.vars, hc.given⟩, hend.answered⟩
      | unsat => exact .pure ⟨hc, hend⟩
      | interrupted => exact .pure ⟨hc, hend⟩
      | restart =>
        have hc' : s.Carried { s₁ with restarts := s₁.restarts + 1 } :=
          ⟨hc.options, hc.answers, hc.polls, hc.vars, hc.given⟩
        have h₁ : Searching Φ A { s₁ with restarts := s₁.restarts + 1 } := Searching.same hend ⟨rfl, rfl, rfl, rfl, rfl, rfl⟩
        refine (ih h₁ hleads (hc'.options.trans ho) (fun _ => ⟨0, _, hs⟩) (by omega)).imp fun r hr => ?_
        exact ⟨hc'.trans hr.1, hr.2.of_carried hc'⟩

end Solver

end Countermodels.Sat
