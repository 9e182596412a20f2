import Countermodels.Proofs.Cnf.Gates

/-! Gates in use. They are asked again and again, about literals of the caller and about their own, while the caller goes
on making variables and writing clauses. Three things hold at every moment. What was replied means what was asked for, by
the clauses of the gates alone. A reply says nothing of the variables that are there: it makes no variable, or one that
the others determine. And what was replied once is replied again, without a word, to everyone who asks for the same inputs
in another order, with repetitions, or with constants that make no difference. -/

namespace Countermodels

namespace Request

variable {top : Lit}

/-- Two requests of one kind whose inputs are the same, except for constants that make no difference to it; those of a
biconditional may change places. -/
def Alike (top : Lit) : Request → Request → Prop
  | and xs, and ys => ∀ l, l ≠ top → (l ∈ xs ↔ l ∈ ys)
  | or xs, or ys => ∀ l, l ≠ top.neg → (l ∈ xs ↔ l ∈ ys)
  | iff a b, iff c d => c = a ∧ d = b ∨ c = b ∧ d = a
  | _, _ => False

theorem foldAnd_congr {xs ys : List Lit} (h : ∀ l, l ≠ top → (l ∈ xs ↔ l ∈ ys)) :
    Gates.foldAnd top xs = Gates.foldAnd top ys := by
  have hbot : top.neg ∈ xs ↔ top.neg ∈ ys := h top.neg top.neg_ne
  have hlits : Gates.normalize (xs.filter (· ≠ top)) = Gates.normalize (ys.filter (· ≠ top)) := by
    refine Gates.normalize_congr fun l => ?_
    simp only [List.mem_filter, decide_eq_true_eq]
    exact and_congr_left (h l)
  unfold Gates.foldAnd
  rw [hlits]
  simp only [hbot]

theorem foldIff_comm (a b : Lit) : Gates.foldIff top a b = Gates.foldIff top b a := by
  unfold Gates.foldIff
  by_cases hab : a = b
  · rw [hab]
  rw [if_neg hab, if_neg (Ne.symm hab)]
  by_cases hneg : a = b.neg
  · have hneg' : b = a.neg := by rw [hneg, Lit.neg_neg]
    rw [if_pos hneg, if_pos hneg']
  have hneg' : ¬ b = a.neg := fun h => hneg (by rw [h, Lit.neg_neg])
  rw [if_neg hneg, if_neg hneg']
  -- what is neither the literal nor its negation has another variable
  have hvar : a.var ≠ b.var := fun h => (Lit.eq_or_eq_neg_of_var_eq h).elim hab hneg
  by_cases ha : a.var = top.var
  · have hb : ¬ b.var = top.var := fun hb => hvar (ha.trans hb.symm)
    rw [if_pos ha, if_neg hb, if_pos ha]
  · rw [if_neg ha, if_neg ha, Gate.ofVars_comm hvar, bne_comm]

theorem foldIff_neg (a b : Lit) : Gates.foldIff top a.neg b = (Gates.foldIff top a b).neg := by
  have hswap : a.neg = b ↔ a = b.neg := by rw [← Lit.neg_inj, Lit.neg_neg]
  unfold Gates.foldIff
  simp only [hswap, Lit.neg_inj, Lit.var_neg]
  by_cases hab : a = b
  · have hneg : ¬ a = b.neg := fun h => b.neg_ne (h.symm.trans hab)
    rw [if_neg hneg, if_pos hab, if_pos hab]
    rfl
  by_cases hneg : a = b.neg
  · rw [if_pos hneg, if_neg hab, if_pos hneg]
    simp [Folded.neg]
  rw [if_neg hneg, if_neg hab, if_neg hab, if_neg hneg]
  by_cases ha : a.var = top.var
  · rw [if_pos ha, if_pos ha]
    rcases Lit.eq_or_eq_neg_of_var_eq ha with rfl | rfl
    · simp [Folded.neg, a.neg_ne]
    · simp [Folded.neg, top.neg_ne]
  rw [if_neg ha, if_neg ha]
  by_cases hb : b.var = top.var
  · rw [if_pos hb, if_pos hb]
    by_cases htop : b = top
    · simp [Folded.neg, htop]
    · simp [Folded.neg, htop]
  rw [if_neg hb, if_neg hb]
  simp [Folded.neg, Gate.ofVars]

/-- Requests that are alike come to the same. -/
theorem fold_congr {r r' : Request} (h : r.Alike top r') : r.fold top = r'.fold top := by
  cases r <;> cases r' <;> simp only [Alike] at h
  case and.and xs ys => exact foldAnd_congr h
  case or.or xs ys =>
    refine congrArg Folded.neg (foldAnd_congr fun l hl => ?_)
    rw [List.mem_map_of_involutive Lit.neg_neg, List.mem_map_of_involutive Lit.neg_neg]
    exact h l.neg fun he => hl (Lit.neg_inj.1 he)
  case iff.iff a b c d =>
    rcases h with ⟨rfl, rfl⟩ | ⟨rfl, rfl⟩
    · rfl
    · exact foldIff_comm _ _

end Request

namespace Gates

variable {g g' : Gates} {f : Cnf} {F : Folded} {k : Gate} {y : Lit}

theorem ask_or (g : Gates) (xs : List Lit) (f : Cnf) :
    g.ask (.or xs) f = opposite (g.ask (.and (xs.map Lit.neg)) f) := rfl

theorem ask_iff_comm (g : Gates) (a b : Lit) (f : Cnf) : g.ask (.iff b a) f = g.ask (.iff a b) f := by
  rw [ask_eq, ask_eq, Request.fold, Request.fold, Request.foldIff_comm]

theorem ask_iff_neg (g : Gates) (a b : Lit) (f : Cnf) :
    g.ask (.iff a.neg b) f = opposite (g.ask (.iff a b) f) := by
  rw [ask_eq, ask_eq, Request.fold, Request.fold, Request.foldIff_neg, realize_neg]

/-- The constant and all gates stay as they are. -/
structure Keeps (g g' : Gates) : Prop where
  top : g'.top = g.top
  find : ∀ k y, g.find? k = some y → g'.find? k = some y

theorem Keeps.value (h : g.Keeps g') (hy : g.value? F = some y) : g'.value? F = some y := by
  cases F with
  | lit l => exact hy
  | gate k negated =>
    obtain ⟨z, hz, rfl⟩ := Option.map_eq_some_iff.1 hy
    exact Option.map_eq_some_iff.2 ⟨z, h.find k z hz, rfl⟩

theorem keeps_realize (g : Gates) (f : Cnf) (F : Folded) : g.Keeps (g.realize f F).1.2 := by
  obtain ⟨y, -, hrun⟩ | ⟨k, negated, -, hnone, hrun⟩ := g.realize_cases F
  · rw [hrun]
    exact ⟨rfl, fun _ _ h => h⟩
  · rw [hrun]
    refine ⟨top_insert .., fun k' y hy => ?_⟩
    rw [find?_insert, if_neg, hy]
    rintro rfl
    rw [hnone] at hy
    cases hy

/-- The requests that do not negate a literal beyond the range of words. -/
def check (g : Gates) : Request → Except Fault Unit
  | .and _ => .ok ()
  | .or xs => g.checkOr xs
  | .iff a b => checkIff a b

end Gates

theorem Lit.isWord_of_var_lt {l : Lit} {n : Nat} (hl : l.var < n) (hn : n < 0x80000000) : l.isWord = true := by
  rw [isWord, decide_eq_true_eq, toInt]
  split <;> omega

theorem Gates.check_eq_ok (g : Gates) {r : Request} {n : Nat} (hr : ∀ l ∈ r.inputs, l.var < n) (hn : n < 0x80000000) :
    g.check r = .ok () := by
  have hword : ∀ l ∈ r.inputs, l.neg.isWord = true := fun l hl => Lit.isWord_of_var_lt (by simpa using hr l hl) hn
  cases r with
  | and xs => rfl
  | or xs =>
    exact if_pos (List.all_eq_true.2 fun l hl => hword l ((List.takeWhile_sublist _).subset hl))
  | iff a b => exact if_pos (.inr ⟨hword a (by simp [Request.inputs]), hword b (by simp [Request.inputs])⟩)

/-- The clauses of a gate over known variables give its literal one value, whatever the others have. -/
theorem Gate.existsUnique_value {k : Gate} {n : Nat} (hk : ∀ l ∈ k.inputs, l.var < n) (σ : Nat → Bool) :
    ∃! v, Models (k.clauses (.positive n)) (Function.update σ n v) := by
  classical
  have hiff : ∀ v, Models (k.clauses (.positive n)) (Function.update σ n v) ↔ (v = true ↔ k.Holds σ) := fun v => by
    rw [Gate.models_clauses, Lit.holds_positive, Function.update_self, ← Gate.holds_congr hk (Agree.update n σ v)]
  refine ⟨decide (k.Holds σ), (hiff _).2 decide_eq_true_iff, fun v hv => ?_⟩
  rw [Bool.eq_iff_iff, decide_eq_true_iff]
  exact (hiff v).1 hv

theorem Cnf.ext_toList {f g : Cnf} (hnum : f.numVars = g.numVars) (hclauses : f.clauses.toList = g.clauses.toList) :
    f = g := by
  cases f
  cases g
  rw [Cnf.mk.injEq]
  exact ⟨hnum, Array.toList_inj.1 hclauses⟩

/-- Gates in use, with a record: the clauses that they wrote, and what they replied to whom. -/
structure Wiring where
  gates : Gates
  cnf : Cnf
  written : List (List Lit)
  replies : List (Request × Lit)

/-- What can happen while gates are in use: the caller makes a variable or writes a clause, or asks for a gate. -/
inductive Wiring.Step where
  | fresh
  | clause (lits : List Lit)
  | ask (r : Request)

namespace Wiring

variable {f : Cnf} {s : Wiring} {r : Request}

def start (f : Cnf) : Wiring where
  gates := (Gates.new f).1
  cnf := (Gates.new f).2
  written := (Gates.new f).2.clauses.toList.drop f.clauses.size
  replies := []

def step (s : Wiring) : Step → Wiring
  | .fresh => { s with cnf := s.cnf.fresh.2 }
  | .clause lits => { s with cnf := s.cnf.add lits }
  | .ask r =>
    let reply := s.gates.ask r s.cnf
    { gates := reply.1.2
      cnf := reply.2
      written := s.written ++ reply.2.clauses.toList.drop s.cnf.clauses.size
      replies := s.replies ++ [(r, reply.1.1)] }

/-- All inputs of a request are literals of variables that are there. -/
def Knows (s : Wiring) (r : Request) : Prop := ∀ l ∈ r.inputs, l.var < s.cnf.numVars

def Allows (s : Wiring) : Step → Prop
  | .ask r => s.Knows r
  | _ => True

/-- The states of gates that were made for a formula and asked for gates over variables that were there. -/
inductive Reached (f : Cnf) : Wiring → Prop
  | start : Reached f (start f)
  | step {s : Wiring} {t : Step} (hs : Reached f s) (ht : s.Allows t) : Reached f (s.step t)

/-- What the gates wrote, as a formula over the variables that there are. -/
def own (s : Wiring) : Cnf := ⟨s.cnf.numVars, s.written.toArray⟩

theorem sat_own {σ : Nat → Bool} : Basis.start.Sat s.own σ ↔ Models s.written σ := by
  rw [Basis.sat_start, Cnf.satisfiedBy_iff]
  rfl

/-- At every moment the clauses of the gates alone say what their literals mean, and the gates know what they replied. -/
structure Sound (s : Wiring) : Prop where
  fits : Basis.start.Fits s.own
  valid : s.gates.Valid Basis.start s.own
  known : ∀ p ∈ s.replies, s.Knows p.1
  settled : ∀ p ∈ s.replies, s.gates.value? (p.1.fold s.gates.top) = some p.2

theorem written_start (f : Cnf) : (start f).written = [[.positive f.numVars]] := by
  rw [start, Gates.clauses_new, List.drop_left']
  rfl

theorem sound_start (f : Cnf) : (start f).Sound := by
  have hknown : (Lit.positive f.numVars).var < (start f).own.numVars := by
    show _ < (Gates.new f).2.numVars
    rw [Gates.numVars_new, Lit.var_positive]
    exact Nat.lt_succ_self _
  refine ⟨⟨Nat.zero_le _, Nat.zero_le _, ?_⟩, ⟨⟨hknown, fun σ hσ => ?_⟩, ?_, ?_⟩, ?_, ?_⟩
  · simp only [own, written_start]
    simpa [Basis.start, own] using hknown
  · have htop := sat_own.1 hσ
    rw [written_start, models_singleton] at htop
    simpa [Lit.anyHolds, Gates.run_new, start] using htop
  · intro xs y hy
    simp [start, Gates.run_new] at hy
  · intro x z y hy
    simp [start, Gates.run_new] at hy
  · exact List.forall_mem_nil _
  · exact List.forall_mem_nil _

/-- More variables and clauses of the caller leave the gates as they were. -/
theorem Sound.more (hs : s.Sound) {cnf : Cnf} (hle : s.cnf.numVars ≤ cnf.numVars) : ({ s with cnf } : Wiring).Sound := by
  have hown : s.own ≤ ({ s with cnf } : Wiring).own := ⟨hle, List.prefix_rfl⟩
  refine ⟨⟨Nat.zero_le _, Nat.zero_le _, fun c hc l hl => ?_⟩, hs.valid.mono hown, fun p hp l hl => ?_, hs.settled⟩
  · exact Nat.lt_of_lt_of_le (hs.fits.known c hc l hl) hle
  · exact Nat.lt_of_lt_of_le (hs.known p hp l hl) hle

theorem step_ask_of_settled {y : Lit} (h : s.gates.ask r s.cnf = ((y, s.gates), s.cnf)) :
    s.step (.ask r) = { s with replies := s.replies ++ [(r, y)] } := by
  rw [step, h]
  simp

theorem step_ask_of_new {k : Gate} {reply : Lit × Gates} (hk : ∀ l ∈ k.inputs, l.var < s.cnf.numVars)
    (h : s.gates.ask r s.cnf = (reply, s.cnf.fresh.2.addAll (k.clauses (.positive s.cnf.numVars)))) :
    (s.step (.ask r)).cnf.numVars = s.cnf.numVars + 1 ∧
      (s.step (.ask r)).cnf.clauses.toList = s.cnf.clauses.toList ++ k.clauses (.positive s.cnf.numVars) ∧
      (s.step (.ask r)).written = s.written ++ k.clauses (.positive s.cnf.numVars) := by
  have hclauses : (s.cnf.fresh.2.addAll (k.clauses (.positive s.cnf.numVars))).clauses.toList =
      s.cnf.clauses.toList ++ k.clauses (.positive s.cnf.numVars) := Cnf.clauses_addAll ..
  rw [step, h]
  refine ⟨Cnf.numVars_addAll (Gate.known_clauses_positive hk), hclauses, ?_⟩
  rw [hclauses, List.drop_left' (Array.length_toList ..)]

section ask

variable (hs : s.Sound) (hr : s.Knows r)
include hs hr

/-- What a request does to any formula: it writes nothing, or makes one variable with the clauses of a gate. -/
theorem Sound.ask_cases :
    (∃ y, ∀ f : Cnf, s.gates.ask r f = ((y, s.gates), f)) ∨
    ∃ k negated, (∀ l ∈ k.inputs, l.var < s.cnf.numVars) ∧ ∀ f : Cnf, s.gates.ask r f =
      (((Lit.positive f.numVars).flip negated, s.gates.insert (.positive f.numVars) k),
        f.fresh.2.addAll (k.clauses (.positive f.numVars))) := by
  obtain ⟨y, -, hrun⟩ | ⟨k, negated, hF, -, hrun⟩ := s.gates.realize_cases (r.fold s.gates.top)
  · exact .inl ⟨y, fun f => (Gates.ask_eq ..).trans (hrun f)⟩
  · have hk := Request.fold_known hs.valid.top.1 hr
    rw [hF] at hk
    exact .inr ⟨k, negated, hk, fun f => (Gates.ask_eq ..).trans (hrun f)⟩

/-- A request writes nothing, or it makes one variable and writes clauses that give it one value, whatever the others
have. -/
theorem Sound.ask_defines :
    (s.step (.ask r)).cnf = s.cnf ∧ (s.step (.ask r)).written = s.written ∨
    ∃ new, (s.step (.ask r)).cnf.numVars = s.cnf.numVars + 1 ∧
      (s.step (.ask r)).cnf.clauses.toList = s.cnf.clauses.toList ++ new ∧
      (s.step (.ask r)).written = s.written ++ new ∧
      ∀ σ : Nat → Bool, ∃! v, Models new (Function.update σ s.cnf.numVars v) := by
  obtain ⟨y, hrun⟩ | ⟨k, negated, hk, hrun⟩ := hs.ask_cases hr
  · rw [step_ask_of_settled (hrun _)]
    exact .inl ⟨rfl, rfl⟩
  · obtain ⟨hnum, hclauses, hwritten⟩ := step_ask_of_new hk (hrun _)
    exact .inr ⟨_, hnum, hclauses, hwritten, Gate.existsUnique_value hk⟩

/-- A request does to what the gates wrote what it does to the formula as a whole. -/
theorem Sound.own_ask :
    s.gates.ask r s.own = (((s.gates.ask r s.cnf).1.1, (s.step (.ask r)).gates), (s.step (.ask r)).own) := by
  obtain ⟨y, hrun⟩ | ⟨k, negated, hk, hrun⟩ := hs.ask_cases hr
  · rw [step_ask_of_settled (hrun _), hrun, hrun]
    rfl
  · obtain ⟨hnum, -, hwritten⟩ := step_ask_of_new hk (hrun _)
    have hown : (s.step (.ask r)).own = s.own.fresh.2.addAll (k.clauses (.positive s.cnf.numVars)) := by
      refine Cnf.ext_toList ?_ ?_
      · exact hnum.trans (Cnf.numVars_addAll (f := s.own.fresh.2) (Gate.known_clauses_positive hk)).symm
      · rw [own, hwritten, Cnf.clauses_addAll]
        rfl
    rw [hown, step, hrun, hrun]
    rfl

theorem Sound.le_ask : s.cnf.numVars ≤ (s.step (.ask r)).cnf.numVars := by
  obtain ⟨hsame, -⟩ | ⟨new, hnum, -⟩ := hs.ask_defines hr
  · rw [hsame]
  · rw [hnum]
    exact Nat.le_succ _

theorem Sound.ask : (s.step (.ask r)).Sound := by
  have hdefines := hs.valid.ask hs.fits hr
  rw [hs.own_ask hr] at hdefines
  have hkeeps : s.gates.Keeps (s.step (.ask r)).gates := by
    rw [step, Gates.ask_eq]
    exact Gates.keeps_realize ..
  have hnew : (s.step (.ask r)).gates.value? (r.fold s.gates.top) = some (s.gates.ask r s.cnf).1.1 := by
    rw [step, Gates.ask_eq]
    exact Gates.value?_realize ..
  refine ⟨hdefines.extend.fits, hdefines.valid, ?_, ?_⟩
  · refine List.forall_mem_append.2 ⟨fun p hp l hl => ?_, List.forall_mem_singleton.2 fun l hl => ?_⟩
    · exact Nat.lt_of_lt_of_le (hs.known p hp l hl) (hs.le_ask hr)
    · exact Nat.lt_of_lt_of_le (hr l hl) (hs.le_ask hr)
  · rw [hkeeps.top]
    exact List.forall_mem_append.2 ⟨fun p hp => hkeeps.value (hs.settled p hp), List.forall_mem_singleton.2 hnew⟩

end ask

theorem Sound.step (hs : s.Sound) {t : Step} (ht : s.Allows t) : (s.step t).Sound := by
  cases t with
  | fresh => exact hs.more (Nat.le_succ _)
  | clause lits => exact hs.more (Nat.le_max_left ..)
  | ask r => exact hs.ask ht

theorem Reached.sound (hs : Reached f s) : s.Sound := by
  induction hs with
  | start => exact sound_start f
  | step _ ht ih => exact ih.step ht

theorem Sound.denotes (hs : s.Sound) {y : Lit} (hy : (r, y) ∈ s.replies) :
    Basis.start.Denotes s.own y fun σ => r.Holds σ := by
  have hknown := Request.fold_known hs.valid.top.1 (hs.known _ hy)
  exact (hs.valid.value hknown (hs.settled _ hy)).congr fun σ hσ => Request.fold_holds (hs.valid.holds_top hσ) r

theorem Sound.ask_again (hs : s.Sound) {y : Lit} (hy : (r, y) ∈ s.replies) {r' : Request}
    (hr : r.Alike s.gates.top r') : s.gates.ask r' s.cnf = ((y, s.gates), s.cnf) := by
  rw [Gates.ask_eq, ← Request.fold_congr hr]
  exact Gates.realize_of_value? (hs.settled _ hy)

/-- At every moment: a reply has the value of what was asked for, wherever the clauses of the gates are true. A request
for literals that are there succeeds while variables are words, and makes no variable or one that has one value, whatever
the others have. Requests alike to one that had a reply get that reply, and nothing is written. Disjunctions are opposite
to the conjunctions of the opposites, and biconditionals are symmetric and odd. -/
theorem gates_are_exact_conservative_and_shared (hs : Reached f s) :
    (∀ r y, (r, y) ∈ s.replies → y.var < s.cnf.numVars ∧
      ∀ σ, Models s.written σ → (y.holds σ = true ↔ r.Holds σ)) ∧
    (∀ r, s.Knows r → (s.cnf.numVars < 0x80000000 → s.gates.check r = .ok ()) ∧
      ((s.step (.ask r)).cnf = s.cnf ∧ (s.step (.ask r)).written = s.written ∨
        ∃ new, (s.step (.ask r)).cnf.numVars = s.cnf.numVars + 1 ∧
          (s.step (.ask r)).cnf.clauses.toList = s.cnf.clauses.toList ++ new ∧
          (s.step (.ask r)).written = s.written ++ new ∧
          ∀ σ : Nat → Bool, ∃! v, Models new (Function.update σ s.cnf.numVars v))) ∧
    (∀ r y, (r, y) ∈ s.replies → ∀ r', r.Alike s.gates.top r' → s.gates.ask r' s.cnf = ((y, s.gates), s.cnf)) ∧
    (∀ xs, s.gates.ask (.or xs) s.cnf = Gates.opposite (s.gates.ask (.and (xs.map Lit.neg)) s.cnf)) ∧
    ∀ a b, s.gates.ask (.iff b a) s.cnf = s.gates.ask (.iff a b) s.cnf ∧
      s.gates.ask (.iff a.neg b) s.cnf = Gates.opposite (s.gates.ask (.iff a b) s.cnf) ∧
      s.gates.ask (.iff a b.neg) s.cnf = Gates.opposite (s.gates.ask (.iff a b) s.cnf) := by
  have hsound := hs.sound
  refine ⟨fun r y hy => ?_, fun r hr => ⟨Gates.check_eq_ok _ hr, hsound.ask_defines hr⟩,
    fun r y hy r' hr => hsound.ask_again hy hr, fun xs => Gates.ask_or .., fun a b => ⟨?_, ?_, ?_⟩⟩
  · obtain ⟨hknown, hholds⟩ := hsound.denotes hy
    exact ⟨hknown, fun σ hσ => hholds σ (sat_own.2 hσ)⟩
  · exact Gates.ask_iff_comm ..
  · exact Gates.ask_iff_neg ..
  · rw [Gates.ask_iff_comm, Gates.ask_iff_neg, Gates.ask_iff_comm]

/-- Two variables of the caller, their conjunction, and a clause of the caller that makes it false. -/
def paired : Wiring :=
  ((((start {}).step .fresh).step .fresh).step (.ask (.and [.positive 1, .positive 2]))).step
    (.clause [(Lit.positive 1).neg])

theorem reached_paired : Reached {} paired := by
  refine .step (.step (.step (.step .start trivial) trivial) ?_) trivial
  show ∀ l ∈ [Lit.positive 1, Lit.positive 2], l.var < 3
  decide

/-- No conjunction is there at the start, so that of the two variables is new. -/
theorem ask_start_paired (g : Cnf) : (start {}).gates.ask (.and [.positive 1, .positive 2]) g =
    ((.positive g.numVars, (start {}).gates.insert (.positive g.numVars) (.all [.positive 1, .positive 2])),
      g.fresh.2.addAll (Gate.clauses (.positive g.numVars) (.all [.positive 1, .positive 2]))) := by
  have hfold : (Request.and [.positive 1, .positive 2]).fold (start {}).gates.top =
      .gate (.all [.positive 1, .positive 2]) false := by cbv
  have hfind : (start {}).gates.find? (.all [.positive 1, .positive 2]) = none := by
    simp [start, Gates.run_new, Gates.find?]
  rw [Gates.ask_eq, hfold, Gates.realize, hfind]
  rfl

theorem top_paired : paired.gates.top = .positive 0 := by
  show ((start {}).gates.ask _ _).1.2.top = _
  rw [ask_start_paired, Gates.top_insert]
  rfl

theorem mem_replies_paired : (Request.and [.positive 1, .positive 2], Lit.positive 3) ∈ paired.replies := by
  show _ ∈ [(_, ((start {}).gates.ask _ _).1.1)]
  rw [ask_start_paired]
  exact List.mem_singleton_self _

theorem gates_are_exact_conservative_and_shared_paired :
    Reached {} paired ∧
    (∀ σ, Models paired.written σ → (σ 3 = true ↔ σ 1 = true ∧ σ 2 = true)) ∧
    paired.gates.ask (.and [.positive 2, .positive 0, .positive 1, .positive 2]) paired.cnf =
      ((.positive 3, paired.gates), paired.cnf) := by
  obtain ⟨hexact, -, hshared, -⟩ := gates_are_exact_conservative_and_shared reached_paired
  refine ⟨reached_paired, fun σ hσ => ?_, hshared _ _ mem_replies_paired _ fun l hl => ?_⟩
  · simpa [Request.Holds] using (hexact _ _ mem_replies_paired).2 σ hσ
  · rw [top_paired] at hl
    simp only [List.mem_cons, List.not_mem_nil, hl, or_false, false_or]
    tauto

end Wiring

end Countermodels
