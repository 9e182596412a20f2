import Countermodels.Proofs.Cnf.Choice

/-! New variables and what they can say. A piece of writing supplies literals that show a value in every
assignment; and whatever value is asked for, there is an assignment in which they show it. -/

namespace Countermodels

section fresh

variable {g : Cnf}

theorem size_freshArray (k : Nat) (g : Cnf) : (Emit.freshArray k g).1.size = k := by
  simp [Emit.run_freshArray]

@[simp] theorem freshArray_snd (k : Nat) (g : Cnf) : (Emit.freshArray k g).2 = g.widen k := by
  rw [Emit.run_freshArray]

@[simp] theorem freshList_snd (k : Nat) (g : Cnf) : (Emit.freshList k g).2 = g.widen k := by
  rw [Emit.run_freshList]

theorem freshList_known (k : Nat) (g : Cnf) : ∀ l ∈ (Emit.freshList k g).1, l.var < (g.widen k).numVars := by
  intro l hl
  simp only [Emit.run_freshList, List.mem_map, List.mem_range] at hl
  obtain ⟨i, hi, rfl⟩ := hl
  simpa [Cnf.widen] using hi

variable {b : Basis} {σ : Nat → Bool}

/-- A new list can be given any values. -/
theorem exists_values (hg : b.Fits g) (hσ : b.Sat g σ) (values : List Bool) :
    ∃ τ, Agree g.numVars σ τ ∧ b.Sat (g.widen values.length) τ ∧
      (Emit.freshList values.length g).1.map (·.holds τ) = values := by
  refine ⟨_, Agree.fill_agree g.numVars σ fun i => values.getD i false, hσ.fill hg _ _, ?_⟩
  rw [Emit.run_freshList, List.map_map]
  refine List.ext_getElem (by simp) fun i _ hi => ?_
  simp [hi]

end fresh

/-- How literals show a value. -/
structure Display (α β : Type) where
  /-- The literals are as many as they should be, and their variables are below a bound. -/
  Known : Nat → α → Prop
  Shows : (Nat → Bool) → α → β → Prop
  /-- The values that can be shown. -/
  Proper : β → Prop
  mono : ∀ {n k a}, Known n a → n ≤ k → Known k a
  congr : ∀ {n a v σ τ}, Known n a → Agree n σ τ → Shows σ a v → Shows τ a v

/-- What holds of literals that have just been supplied. -/
structure Supplied {α β : Type} (D : Display α β) (b : Basis) (f : Cnf) (r : α × Cnf) : Prop where
  le : f ≤ r.2
  fits : b.Fits r.2
  known : D.Known r.2.numVars r.1
  sound : ∀ τ, b.Sat r.2 τ → ∃ v, D.Proper v ∧ D.Shows τ r.1 v
  complete : ∀ σ v, b.Sat f σ → D.Proper v → ∃ τ, Agree f.numVars σ τ ∧ b.Sat r.2 τ ∧ D.Shows τ r.1 v

/-- The writing supplies literals that show values. -/
def Supplies {α β : Type} (m : StateM Cnf α) (D : Display α β) : Prop :=
  ∀ (b : Basis) (f : Cnf), b.Fits f → Supplied D b f (m f)

namespace Display

variable {α α' β β' : Type}

/-- A list of literals shows a list of truth values. -/
def lits (k : Nat) : Display (List Lit) (List Bool) where
  Known n ls := ls.length = k ∧ ∀ l ∈ ls, l.var < n
  Shows σ ls vs := ls.map (·.holds σ) = vs
  Proper vs := vs.length = k
  mono h hn := ⟨h.1, fun l hl => Nat.lt_of_lt_of_le (h.2 l hl) hn⟩
  congr h hστ hσ := by
    rw [← hσ]
    exact List.map_congr_left fun l hl => (hστ.holds (h.2 l hl)).symm

/-- A choice shows one value of its domain. -/
def choice [DecidableEq α] (domain : List α) : Display (Choice α) α where
  Known n c := c.domain = domain ∧ c.lits.length = domain.length ∧ ∀ l ∈ c.lits, l.var < n
  Shows σ c a := c.lits.map (·.holds σ) = domain.map (decide <| · = a)
  Proper a := a ∈ domain
  mono h hn := ⟨h.1, h.2.1, fun l hl => Nat.lt_of_lt_of_le (h.2.2 l hl) hn⟩
  congr h hστ hσ := by
    rw [← hσ]
    exact List.map_congr_left fun l hl => (hστ.holds (h.2.2 l hl)).symm

/-- A list of things that each show a value. -/
def list (D : Display α β) (k : Nat) : Display (List α) (List β) where
  Known n as := as.length = k ∧ ∀ a ∈ as, D.Known n a
  Shows σ as vs := List.Forall₂ (D.Shows σ) as vs
  Proper vs := vs.length = k ∧ ∀ v ∈ vs, D.Proper v
  mono h hn := ⟨h.1, fun a ha => D.mono (h.2 a ha) hn⟩
  congr h hστ hσ := by
    obtain ⟨-, hknown⟩ := h
    induction hσ with
    | nil => exact .nil
    | cons hv _ ih =>
      rw [List.forall_mem_cons] at hknown
      exact .cons (D.congr hknown.1 hστ hv) (ih hknown.2)

/-- Something that shows a value through a part of it. -/
def comap (D : Display α β) (part : α' → α) : Display α' β where
  Known n a := D.Known n (part a)
  Shows σ a := D.Shows σ (part a)
  Proper := D.Proper
  mono := D.mono
  congr := D.congr

/-- Two things that show a value each. -/
def pair (D : Display α β) (D' : Display α' β') : Display (α × α') (β × β') where
  Known n a := D.Known n a.1 ∧ D'.Known n a.2
  Shows σ a v := D.Shows σ a.1 v.1 ∧ D'.Shows σ a.2 v.2
  Proper v := D.Proper v.1 ∧ D'.Proper v.2
  mono h hn := ⟨D.mono h.1 hn, D'.mono h.2 hn⟩
  congr h hστ hσ := ⟨D.congr h.1 hστ hσ.1, D'.congr h.2 hστ hσ.2⟩

end Display

namespace Supplies

variable {α α' β β' ι : Type} {m : StateM Cnf α} {m' : StateM Cnf α'} {D : Display α β} {D' : Display α' β'}

theorem freshList (k : Nat) : Supplies (Emit.freshList k) (.lits k) := by
  intro b f hf
  refine ⟨?_, ?_, ⟨?_, ?_⟩, fun τ _ => ⟨_, ?_, rfl⟩, fun σ v hσ hv => ?_⟩
  · rw [freshList_snd]
    exact Cnf.le_widen f k
  · rw [freshList_snd]
    exact hf.widen k
  · simp [Emit.run_freshList]
  · rw [freshList_snd]
    exact freshList_known k f
  · show (List.map _ _).length = k
    simp [Emit.run_freshList]
  · have hlen : v.length = k := hv
    subst hlen
    obtain ⟨τ, hστ, hτ, hvalues⟩ := exists_values hf hσ v
    rw [freshList_snd]
    exact ⟨τ, hστ, hτ, hvalues⟩

/-- What is made of supplied literals shows what they show. -/
theorem map (h : Supplies m D) (make : α → α') (part : α' → α) (hpart : ∀ a, part (make a) = a) :
    Supplies (do return make (← m)) (D.comap part) := by
  intro b f hf
  have hm := h b f hf
  have hrun : (do return make (← m) : StateM Cnf α') f = (make (m f).1, (m f).2) := rfl
  rw [hrun]
  refine ⟨hm.le, hm.fits, ?_, fun τ hτ => ?_, fun σ v hσ hv => ?_⟩
  · show D.Known _ (part (make _))
    rw [hpart]
    exact hm.known
  · show ∃ v, D.Proper v ∧ D.Shows τ (part (make _)) v
    rw [hpart]
    exact hm.sound τ hτ
  · show ∃ τ, _ ∧ _ ∧ D.Shows τ (part (make _)) v
    rw [hpart]
    exact hm.complete σ v hσ hv

theorem freshArray (k : Nat) : Supplies (Emit.freshArray k) ((Display.lits k).comap Array.toList) :=
  (freshList k).map List.toArray Array.toList fun _ => rfl

/-- One supply after the other. -/
theorem pair (h : Supplies m D) (h' : Supplies m' D') :
    Supplies (do return (← m, ← m')) (D.pair D') := by
  intro b f hf
  have hm := h b f hf
  have hm' := h' b (m f).2 hm.fits
  have hrun : (do return (← m, ← m') : StateM Cnf (α × α')) f = (((m f).1, (m' (m f).2).1), (m' (m f).2).2) := rfl
  rw [hrun]
  refine ⟨Cnf.le_trans hm.le hm'.le, hm'.fits, ⟨D.mono hm.known hm'.le.1, hm'.known⟩, fun τ hτ => ?_,
    fun σ v hσ hv => ?_⟩
  · obtain ⟨v, hv, hshows⟩ := hm.sound τ (hτ.mono hm'.le)
    obtain ⟨v', hv', hshows'⟩ := hm'.sound τ hτ
    exact ⟨(v, v'), ⟨hv, hv'⟩, hshows, hshows'⟩
  · obtain ⟨τ, hστ, hτ, hshows⟩ := hm.complete σ v.1 hσ hv.1
    obtain ⟨υ, hτυ, hυ, hshows'⟩ := hm'.complete τ v.2 hτ hv.2
    exact ⟨υ, hστ.trans (hτυ.mono hm.le.1), hυ, D.congr hm.known hτυ hshows, hshows'⟩

theorem mapM {write : ι → StateM Cnf α} (xs : List ι) (h : ∀ x ∈ xs, Supplies (write x) D) :
    Supplies (xs.mapM write) (D.list xs.length) := by
  induction xs with
  | nil =>
    intro b f hf
    refine ⟨Cnf.le_refl f, hf, ⟨rfl, fun _ ha => absurd ha List.not_mem_nil⟩, fun τ _ => ⟨[], ⟨rfl, by simp⟩, .nil⟩, fun σ v hσ hv => ?_⟩
    have hnil : v = [] := List.length_eq_zero_iff.1 hv.1
    subst hnil
    exact ⟨σ, .refl _ _, hσ, .nil⟩
  | cons x xs ih =>
    rw [List.forall_mem_cons] at h
    intro b f hf
    have hm := h.1 b f hf
    have hrest := ih h.2 b (write x f).2 hm.fits
    have hrun : (x :: xs).mapM write f = ((write x f).1 :: (xs.mapM write (write x f).2).1, (xs.mapM write (write x f).2).2) := by
      rw [List.mapM_cons]
      rfl
    rw [hrun]
    refine ⟨Cnf.le_trans hm.le hrest.le, hrest.fits, ⟨?_, ?_⟩, fun τ hτ => ?_, fun σ vs hσ hvs => ?_⟩
    · rw [List.length_cons, hrest.known.1, List.length_cons]
    · exact List.forall_mem_cons.2 ⟨D.mono hm.known hrest.le.1, hrest.known.2⟩
    · obtain ⟨v, hv, hshows⟩ := hm.sound τ (hτ.mono hrest.le)
      obtain ⟨vs, hvs, hshows'⟩ := hrest.sound τ hτ
      exact ⟨v :: vs, ⟨by rw [List.length_cons, hvs.1, List.length_cons], List.forall_mem_cons.2 ⟨hv, hvs.2⟩⟩,
        .cons hshows hshows'⟩
    · cases vs with
      | nil => exact absurd hvs.1 (by simp)
      | cons v vs =>
        obtain ⟨hlen, hproper⟩ := hvs
        rw [List.forall_mem_cons] at hproper
        obtain ⟨τ, hστ, hτ, hshows⟩ := hm.complete σ v hσ hproper.1
        obtain ⟨υ, hτυ, hυ, hshows'⟩ := hrest.complete τ vs hτ ⟨by simpa using hlen, hproper.2⟩
        exact ⟨υ, hστ.trans (hτυ.mono hm.le.1), hυ, .cons (D.congr hm.known hτυ hshows) hshows'⟩

/-- Text about supplied literals: they may show any value that the text allows. -/
theorem imposes {n : Nat} {write : α → StateM Cnf Unit} {P : β → (Nat → Bool) → Prop} (h : Supplies m D)
    (hP : ∀ v σ τ, Agree n σ τ → P v σ → P v τ)
    (hwrite : ∀ a k, n ≤ k → D.Known k a → Imposes k (write a) fun σ => ∃ v, D.Proper v ∧ D.Shows σ a v ∧ P v σ) :
    Imposes n (m >>= write) fun σ => ∃ v, D.Proper v ∧ P v σ := by
  refine ⟨fun σ τ hστ hσ => ?_, fun b f hf hn => ?_⟩
  · obtain ⟨v, hv, hσ⟩ := hσ
    exact ⟨v, hv, hP v σ τ hστ hσ⟩
  have hm := h b f hf
  have hw := (hwrite (m f).1 (m f).2.numVars (Nat.le_trans hn hm.le.1) hm.known).restricts b (m f).2 hm.fits
    (Nat.le_refl _)
  refine ⟨Cnf.le_trans hm.le hw.le, hw.fits, fun τ hτ => ?_, fun σ hσ hC => ?_⟩
  · obtain ⟨v, hv, -, hτ⟩ := hw.sound τ hτ
    exact ⟨v, hv, hτ⟩
  · obtain ⟨v, hv, hvσ⟩ := hC
    obtain ⟨τ, hστ, hτ, hshows⟩ := hm.complete σ v hσ hv
    obtain ⟨υ, hτυ, hυ⟩ := hw.complete τ hτ ⟨v, hv, hshows, hP v σ τ (hστ.mono hn) hvσ⟩
    exact ⟨υ, hστ.trans (hτυ.mono hm.le.1), hυ⟩

end Supplies

namespace Choice

variable {α : Type} [DecidableEq α] {c : Choice α} {a : α} {σ : Nat → Bool}

/-- The literals show a value just if the literal of each other value is false, and its own is true. -/
theorem Regular.shows_iff (hc : c.Regular) : (Display.choice c.domain).Shows σ c a ↔
    ∀ p ∈ c.pairs, p.2.holds σ = true ↔ p.1 = a := by
  show c.lits.map (·.holds σ) = c.domain.map (decide <| · = a) ↔ _
  rw [← hc.map_snd, ← hc.map_fst, List.map_map, List.map_map, List.map_inj_left]
  refine forall₂_congr fun p _ => ?_
  rw [Bool.eq_iff_iff]
  simp

/-- Just one literal is true where a value is shown. -/
theorem Regular.chosen_of_shows (hc : c.Regular) (ha : a ∈ c.domain) (h : (Display.choice c.domain).Shows σ c a) :
    c.Chosen σ := by
  have hvalues : c.lits.map (·.holds σ) = c.domain.map (decide <| · = a) := h
  constructor
  · have htrue : true ∈ c.lits.map (·.holds σ) := by
      rw [hvalues]
      exact List.mem_map.2 ⟨a, ha, by simp⟩
    exact List.mem_map.1 htrue
  · rw [AtMostOne, hvalues, List.pairwise_map]
    refine hc.nodup.imp fun hne hs => ?_
    simp only [decide_eq_true_eq, decide_eq_false_iff_not] at hs ⊢
    exact fun ht => hne (hs.trans ht.symm)

end Choice

theorem Supplies.one {α : Type} [DecidableEq α] {domain : List α} (hnodup : domain.Nodup) :
    Supplies (Choice.one domain) (.choice domain) := by
  intro b f hf
  have hfree := Supplies.freshList domain.length b f hf
  generalize hr : Emit.freshList domain.length f = r at hfree
  obtain ⟨ls, g⟩ := r
  have hrun : Choice.one domain f = (⟨domain, ls⟩, (Emit.exactlyOne ls g).2) := by
    show ((⟨domain, (Emit.freshList domain.length f).1⟩ : Choice α), _) = _
    rw [hr]
    rfl
  have hreg : (⟨domain, ls⟩ : Choice α).Regular := ⟨hfree.known.1, hnodup⟩
  have hone := (Imposes.exactlyOne hfree.known.2).restricts b g hfree.fits (Nat.le_refl _)
  rw [hrun]
  refine ⟨Cnf.le_trans hfree.le hone.le, hone.fits, ⟨rfl, hfree.known.1, fun l hl => ?_⟩, fun τ hτ => ?_,
    fun σ a hσ ha => ?_⟩
  · exact Nat.lt_of_lt_of_le (hfree.known.2 l hl) hone.le.1
  · obtain ⟨hsome, hmost⟩ := hone.sound τ hτ
    obtain ⟨a, ha, -, -, hpairs⟩ := (Choice.Chosen.mk hsome hmost : (⟨domain, ls⟩ : Choice α).Chosen τ).value_spec hreg
    exact ⟨a, ha, hreg.shows_iff.2 hpairs⟩
  · obtain ⟨τ, hστ, hτ, hvalues⟩ := hfree.complete σ (domain.map (decide <| · = a)) hσ (List.length_map _)
    have hchosen := hreg.chosen_of_shows ha hvalues
    obtain ⟨υ, hτυ, hυ⟩ := hone.complete τ hτ ⟨hchosen.some_true, hchosen.one_true⟩
    refine ⟨υ, hστ.trans (hτυ.mono hfree.le.1), hυ, ?_⟩
    exact (Display.lits domain.length).congr hfree.known hτυ hvalues

end Countermodels
