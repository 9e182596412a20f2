import Countermodels.Proofs.Formula.Scan

/-! The written form of a formula. It is derived for the formula by the grammar, so reading it gives the formula
back. -/

namespace Countermodels.Formula

variable {t : List Char}

theorem endsLetter_of_stops (ht : Stops t) : EndsLetter t := by
  cases t with
  | nil => rfl
  | cons c t =>
    rcases ht c rfl with rfl | rfl | hspace
    · rfl
    · rfl
    · rcases isSpace_cases hspace with rfl | rfl | rfl | rfl <;> rfl

theorem endsWord_of_stops (ht : Stops t) : EndsWord t := by
  cases t with
  | nil => rfl
  | cons c t =>
    rcases ht c rfl with rfl | rfl | hspace
    · rfl
    · rfl
    · rcases isSpace_cases hspace with rfl | rfl | rfl | rfl <;> rfl

theorem gap_space (t : List Char) : Gap (' ' :: t) t := ⟨[' '], List.forall_mem_singleton.2 rfl, rfl⟩

/-- The written form of a formula is derived for it, wherever a term can end. -/
theorem derives_render (f : Formula) (t : List Char) (ht : Stops t) : Derives .term (f.render.toList ++ t) t f := by
  have hspace : ∀ t, Stops (' ' :: t) := fun t c hc => by
    obtain rfl : ' ' = c := by simpa using hc
    exact .inr (.inr rfl)
  induction f generalizing t with
  | atom a =>
    rw [render, Char.toString_eq_singleton, String.toList_singleton]
    exact .atom a (endsLetter_of_stops ht)
  | top => exact .top (endsWord_of_stops ht)
  | bot => exact .bot (endsWord_of_stops ht)
  | unary op f ih =>
    have heq : (unary op f).render.toList ++ t =
        (Operator.unary op).symbol.toList ++ (' ' :: (f.render.toList ++ t)) := by
      simp [render, Operator.symbol]
    rw [heq]
    exact .unary op (endsWord_of_stops (hspace _)) (gap_space _) (ih t ht)
  | binary op f g ihf ihg =>
    have heq : (binary op f g).render.toList ++ t = '(' :: (f.render.toList ++ (' ' ::
        ((Operator.binary op).symbol.toList ++ (' ' :: (g.render.toList ++ (')' :: t)))))) := by
      simp [render, Operator.symbol]
    rw [heq]
    refine .group (.refl _) (.binary op (ihf _ (hspace _)) (gap_space _) (endsWord_of_stops (hspace _)) (gap_space _)
      (ihg _ (stops_close t))) (.refl _)

theorem parse_render_eq (f : Formula) : parse f.render = .ok f := by
  have hstop : Stops [] := fun c hc => by cases hc
  have hterm := derives_render f [] hstop
  rw [List.append_nil] at hterm
  exact parse_eq_ok_iff.2 ⟨_, _, .refl _, .term hterm, .refl _⟩

/-- Printing a formula and reading it again gives the formula; so different formulas are printed differently, and a
text that was read can be replaced by the printed form. -/
theorem printing_reads_back : (∀ f : Formula, parse f.render = .ok f) ∧ Function.Injective render ∧
    ∀ source f, parse source = .ok f → parse f.render = .ok f := by
  refine ⟨parse_render_eq, fun f g h => ?_, fun _ f _ => parse_render_eq f⟩
  have hread := parse_render_eq f
  rw [h, parse_render_eq g] at hread
  exact (Except.ok.inj hread).symm

end Countermodels.Formula
