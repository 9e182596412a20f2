import Countermodels.Proofs.Gives
import Countermodels.Proofs.Json.Fields
import Countermodels.Settings

/-! Reading the settings of a check. Each known name takes values of one kind. Settings are read exactly
when `N` is given and every field has a value of its kind; otherwise the reason names `N` if it is at
fault, and else the first field in the order of names that is. One kind of value is neither taken nor
refused: a positive number of seconds that no duration holds. -/

namespace Countermodels

/-! Doubles as durations: whole seconds are counted in a word of 64 bits. -/

namespace Number.Binary64

/-- The exact magnitude. -/
def magnitude (b : Binary64) : ℚ := b.mantissa * 2 ^ b.exponent

theorem mantissa_ofFloat_lt (x : Float) : (ofFloat x).mantissa < 2 ^ 53 := by
  have hfraction : x.toBits.toNat % 2 ^ 52 < 2 ^ 52 := Nat.mod_lt _ (by decide)
  unfold ofFloat
  simp only [Nat.one_shiftLeft]
  split
  · exact hfraction.trans (by decide)
  · dsimp only
    omega

theorem roundScaled_le (b : Binary64) (scale : Nat) :
    b.roundScaled scale ≤ b.fraction.1 * scale / b.fraction.2 + 1 := by
  unfold roundScaled
  dsimp only
  split_ifs <;> omega

theorem roundScaled_of_whole {b : Binary64} (h : b.fraction.2 = 1) (scale : Nat) :
    b.roundScaled scale = b.fraction.1 * scale := by
  unfold roundScaled
  simp [h, Nat.mod_one]

end Number.Binary64

namespace Duration

open Number (Binary64)

theorem roundScaled_lt_iff {b : Binary64} (h : b.mantissa < 2 ^ 53) :
    b.roundScaled perSecond < (1 <<< 64) * perSecond ↔ b.magnitude < 2 ^ 64 := by
  by_cases he : 0 ≤ b.exponent
  · -- a whole number of seconds is a whole number of nanoseconds
    obtain ⟨k, hk⟩ := Int.eq_ofNat_of_zero_le he
    have hfraction : b.fraction = (b.mantissa * 2 ^ k, 1) := by
      rw [Binary64.fraction, if_pos he, hk, Int.toNat_natCast, Nat.shiftLeft_eq]
    have hmagnitude : b.magnitude = ((b.mantissa * 2 ^ k : Nat) : ℚ) := by
      rw [Binary64.magnitude, hk, zpow_natCast]
      push_cast
      rfl
    rw [Binary64.roundScaled_of_whole (by rw [hfraction]), hfraction, hmagnitude,
      Nat.mul_lt_mul_right (by decide), Nat.one_shiftLeft]
    exact_mod_cast Iff.rfl
  · -- with a fraction of seconds the number is below `2 ^ 53`
    have hsmall : b.roundScaled perSecond ≤ b.mantissa * perSecond + 1 := by
      refine (b.roundScaled_le perSecond).trans (Nat.add_le_add_right ?_ 1)
      rw [Binary64.fraction, if_neg he]
      exact Nat.div_le_self ..
    have hmagnitude : b.magnitude ≤ b.mantissa := by
      refine mul_le_of_le_one_right (Nat.cast_nonneg _) (zpow_le_one_of_nonpos₀ (by norm_num) (by omega))
    have hmantissa : (b.mantissa : ℚ) < 2 ^ 64 := by exact_mod_cast h.trans (by decide)
    refine iff_of_true ?_ (hmagnitude.trans_lt hmantissa)
    unfold perSecond at hsmall ⊢
    omega

/-- The duration nearest to a number of seconds. -/
def nearest (x : Float) : Duration := ⟨(Binary64.ofFloat x).roundScaled perSecond⟩

theorem ofSeconds_of_lt {x : Float} (h : (Binary64.ofFloat x).magnitude < 2 ^ 64) :
    ofSeconds x = .ok (nearest x) :=
  if_pos ((roundScaled_lt_iff (Binary64.mantissa_ofFloat_lt x)).2 h)

theorem wholeSeconds_nearest_lt {x : Float} (h : (Binary64.ofFloat x).magnitude < 2 ^ 64) :
    (nearest x).wholeSeconds < 2 ^ 64 :=
  Nat.div_lt_of_lt_mul (((roundScaled_lt_iff (Binary64.mantissa_ofFloat_lt x)).2 h).trans_eq (Nat.mul_comm ..))

theorem ofSeconds_of_le {x : Float} (h : 2 ^ 64 ≤ (Binary64.ofFloat x).magnitude) :
    ofSeconds x = .error .duration :=
  if_neg fun hlt => h.not_gt ((roundScaled_lt_iff (Binary64.mantissa_ofFloat_lt x)).1 hlt)

end Duration

namespace Settings

open Number (Binary64)

/-- The values a setting takes. -/
inductive Kind where
  /-- A whole number, at least `least`, and at most `most` if there is a bound. -/
  | count (least : Nat) (most : Option Nat)
  | flag
  /-- A positive number of seconds. -/
  | seconds

/-- The settings there are. -/
def kind? : String → Option Kind
  | "N" => some (.count 0 (some 8))
  | "M" => some (.count 1 (some 8))
  | "contingent" | "disjoint" | "non_empty" | "non_null" | "expectation" => some .flag
  | "max_time" => some .seconds
  | "iterate" => some (.count 1 none)
  | _ => none

/-- The value stands for a positive number of seconds. -/
structure Lasts (value : Json) (x : Float) : Prop where
  double : value.double? = some x
  finite : x.isFinite = true
  positive : 0.0 < x

/-- The value is of the kind. -/
def Kind.Admits : Kind → Json → Prop
  | count least most, value => ∃ n, value = .number (.nat n) ∧ least ≤ n ∧ ∀ limit ∈ most, n ≤ limit
  | flag, value => ∃ b, value = .bool b
  | seconds, value => ∃ x, Lasts value x ∧ (Binary64.ofFloat x).magnitude < 2 ^ 64

/-- What is wrong with a value that is refused. -/
inductive Kind.Mistaken : Kind → Json → SettingMistake → Prop
  | notCount {least most value} (h : ∀ n, value ≠ .number (.nat n)) :
    Mistaken (count least most) value (.notCount value)
  | zero {most} : Mistaken (count 1 most) (.number (.nat 0)) .zero
  | tooLarge {least limit n} (h : limit < n) :
    Mistaken (count least (some limit)) (.number (.nat n)) (.tooLarge n limit)
  | notBoolean {value} (h : ∀ b, value ≠ .bool b) : Mistaken flag value (.notBoolean value)
  | notSeconds {value} (h : ∀ x, ¬Lasts value x) : Mistaken seconds value (.notSeconds value)

/-- The field is a setting with a value of its kind. -/
def Accepted (field : String × Json) : Prop := ∃ kind, kind? field.1 = some kind ∧ kind.Admits field.2

theorem kind?_seconds {key : String} (h : kind? key = some .seconds) : key = "max_time" := by
  unfold kind? at h
  split at h <;> simp_all

theorem Accepted.admits {key : String} {value : Json} {kind : Kind} (h : Accepted (key, value))
    (hkind : kind? key = some kind) : kind.Admits value := by
  obtain ⟨kind', hkind', hadmits⟩ := h
  cases hkind'.symm.trans hkind
  exact hadmits

/-- What a field that is not accepted ends in. -/
inductive Offence : String × Json → Failure → Prop
  | unknown {key value} (h : kind? key = none) : Offence (key, value) (.refused (.unknownSetting key))
  | mistaken {key value kind mistake} (hkind : kind? key = some kind) (h : kind.Mistaken value mistake) :
    Offence (key, value) (.refused (.invalidSetting key mistake))
  | overlong {key value x} (hkind : kind? key = some .seconds) (hx : Lasts value x)
    (h : 2 ^ 64 ≤ (Binary64.ofFloat x).magnitude) : Offence (key, value) (.fault .duration)

/-- The setting of a name as `read` from its value, if it is given. -/
def setting {α : Type} (name : String) (read : Json → Option α) (fields : List (String × Json)) (unset : α) :
    α :=
  ((Json.lookup name fields).bind read).getD unset

/-- The settings with the values that the fields give. -/
def given (fields : List (String × Json)) (s : Settings) : Settings where
  n := s.n
  m := setting "M" (fun value => value.nat?.map some) fields s.m
  contingent := setting "contingent" Json.bool? fields s.contingent
  disjoint := setting "disjoint" Json.bool? fields s.disjoint
  nonEmpty := setting "non_empty" Json.bool? fields s.nonEmpty
  nonNull := setting "non_null" Json.bool? fields s.nonNull
  maxTime := setting "max_time" (fun value => value.double?.map Duration.nearest) fields s.maxTime
  iterate := setting "iterate" Json.nat? fields s.iterate
  expectation := setting "expectation" (fun value => value.bool?.map some) fields s.expectation

theorem setting_cons {α : Type} {name : String} {read : Json → Option α} {field : String × Json}
    {fields : List (String × Json)} (h : ∀ p ∈ fields, field.1 ≠ p.1) (unset : α) :
    setting name read (field :: fields) unset = setting name read fields (setting name read [field] unset) := by
  unfold setting
  rw [Json.lookup_cons, Json.lookup_cons]
  by_cases hname : field.1 = name
  · rw [if_pos hname, if_pos hname, Json.lookup_eq_none fun p hp => hname ▸ (h p hp).symm]
    rfl
  · rw [if_neg hname, if_neg hname]
    rfl

@[simp] theorem setting_singleton {α : Type} {name key : String} {read : Json → Option α} {value : Json}
    (unset : α) :
    setting name read [(key, value)] unset = if key = name then (read value).getD unset else unset := by
  unfold setting
  rw [Json.lookup_cons]
  split
  · rfl
  · rfl

theorem given_cons {field : String × Json} {fields : List (String × Json)} (h : ∀ p ∈ fields, field.1 ≠ p.1)
    (s : Settings) : given (field :: fields) s = given fields (given [field] s) := by
  simp only [given, setting_cons h]

/-! What the check of one value does. -/

theorem eq_of_bool? {value : Json} {b : Bool} (h : value.bool? = some b) : value = .bool b := by
  unfold Json.bool? at h
  split at h
  · rw [Option.some.inj h]
  · cases h

theorem Kind.Mistaken.not_admits {kind : Kind} {value : Json} {mistake : SettingMistake}
    (h : kind.Mistaken value mistake) : ¬kind.Admits value := by
  cases h with
  | notCount h =>
    rintro ⟨n, rfl, -⟩
    exact h n rfl
  | zero =>
    rintro ⟨n, hn, hle, -⟩
    cases hn
    exact absurd hle (by decide)
  | tooLarge h =>
    rintro ⟨n, hn, -, hle⟩
    cases hn
    exact h.not_ge (hle _ rfl)
  | notBoolean h =>
    rintro ⟨b, rfl⟩
    exact h b rfl
  | notSeconds h =>
    rintro ⟨x, hx, -⟩
    exact h x hx

theorem Offence.not_accepted {field : String × Json} {e : Failure} (h : Offence field e) : ¬Accepted field := by
  rintro ⟨kind, hkind, hadmits⟩
  cases h with
  | unknown h => cases h.symm.trans hkind
  | mistaken hkind' h =>
    cases hkind'.symm.trans hkind
    exact h.not_admits hadmits
  | overlong hkind' hx h =>
    cases hkind'.symm.trans hkind
    obtain ⟨y, hy, hlt⟩ := hadmits
    cases hx.double.symm.trans hy.double
    exact h.not_gt hlt

section

variable {key : String} {value : Json}

/-- A check takes an admitted value, as `read` gives it, and ends as the field offends otherwise. -/
def Checks {α : Type} (kind : Kind) (key : String) (value : Json) (x : Except Failure α)
    (read : Json → Option α) : Prop :=
  (kind.Admits value ∧ ∃ a, read value = some a ∧ x = .ok a) ∨ ∃ e, Offence (key, value) e ∧ x = .error e

theorem count_cases (key : String) (value : Json) :
    (∃ n, value = .number (.nat n) ∧ count key value = .ok n) ∨
      (∀ n, value ≠ .number (.nat n)) ∧
        count key value = .error (.refused (.invalidSetting key (.notCount value))) := by
  cases hvalue : value.nat? with
  | none =>
    refine .inr ⟨fun n hn => ?_, by rw [count, hvalue]⟩
    rw [hn] at hvalue
    cases hvalue
  | some n =>
    refine .inl ⟨n, ?_, by rw [count, hvalue]⟩
    unfold Json.nat? at hvalue
    split at hvalue
    · rw [Option.some.inj hvalue]
    · cases hvalue

theorem checks_positive {limit : Option Nat} (hkind : kind? key = some (.count 1 limit)) :
    Checks (.count 1 limit) key value (count key value >>= positive key limit) Json.nat? := by
  rcases count_cases key value with ⟨n, rfl, hcount⟩ | ⟨hnot, hcount⟩
  · rw [hcount, ok_bind]
    unfold positive
    split
    · next hzero =>
      subst hzero
      exact .inr ⟨_, .mistaken hkind .zero, rfl⟩
    · next hpos =>
      cases limit with
      | none => exact .inl ⟨⟨n, rfl, Nat.one_le_iff_ne_zero.2 hpos, by simp⟩, n, rfl, rfl⟩
      | some limit =>
        dsimp only
        split
        · next hlarge => exact .inr ⟨_, .mistaken hkind (.tooLarge hlarge), rfl⟩
        · next hle =>
          exact .inl ⟨⟨n, rfl, Nat.one_le_iff_ne_zero.2 hpos, by simpa using hle⟩, n, rfl, rfl⟩
  · rw [hcount]
    exact .inr ⟨_, .mistaken hkind (.notCount hnot), rfl⟩

theorem checks_flag (hkind : kind? key = some .flag) :
    Checks .flag key value (flag key value) Json.bool? := by
  cases hvalue : value.bool? with
  | none =>
    refine .inr ⟨_, .mistaken hkind (.notBoolean fun b hb => ?_), by rw [flag, hvalue]⟩
    rw [hb] at hvalue
    cases hvalue
  | some b => exact .inl ⟨⟨b, eq_of_bool? hvalue⟩, b, hvalue, by rw [flag, hvalue]⟩

theorem checks_time (hkind : kind? key = some .seconds) :
    Checks .seconds key value (time key value) fun value => value.double?.map Duration.nearest := by
  cases hvalue : value.double? with
  | none =>
    refine .inr ⟨_, .mistaken hkind (.notSeconds fun x hx => ?_), by rw [time, hvalue]⟩
    cases hvalue.symm.trans hx.double
  | some x =>
    by_cases hx : x.isFinite = true ∧ 0.0 < x
    · have htime : time key value = Failure.ofFault (Duration.ofSeconds x) := by
        rw [time, hvalue]
        exact if_pos (by simpa using hx)
      have hlasts : Lasts value x := ⟨hvalue, hx.1, hx.2⟩
      rw [htime]
      rcases lt_or_ge (Binary64.ofFloat x).magnitude (2 ^ 64) with hlt | hle
      · exact .inl ⟨⟨x, hlasts, hlt⟩, _, congrArg (Option.map _) hvalue, by rw [Duration.ofSeconds_of_lt hlt]; rfl⟩
      · exact .inr ⟨_, .overlong hkind hlasts hle, by rw [Duration.ofSeconds_of_le hle]; rfl⟩
    · refine .inr ⟨_, .mistaken hkind (.notSeconds fun y hy => ?_), ?_⟩
      · cases hvalue.symm.trans hy.double
        exact hx ⟨hy.finite, hy.positive⟩
      · rw [time, hvalue]
        exact if_neg (by simpa using hx)

/-- Reading one field records its value, or ends as the field offends. -/
def Heeds (s : Settings) (field : String × Json) (x : Except Failure Settings) : Prop :=
  (Accepted field ∧ x = .ok (given [field] s)) ∨ ∃ e, Offence field e ∧ x = .error e

theorem Checks.heeds {α : Type} {kind : Kind} {x : Except Failure α} {read : Json → Option α} {s : Settings}
    {put : α → Settings} (h : Checks kind key value x read) (hkind : kind? key = some kind)
    (hput : ∀ a, read value = some a → put a = given [(key, value)] s) :
    Heeds s (key, value) (x >>= fun a => pure (put a)) := by
  rcases h with ⟨hadmits, a, ha, rfl⟩ | ⟨e, he, rfl⟩
  · exact .inl ⟨⟨kind, hkind, hadmits⟩, congrArg Except.ok (hput a ha)⟩
  · exact .inr ⟨e, he, rfl⟩

theorem heeds_set (s : Settings) (hkey : key ≠ "N") : Heeds s (key, value) (s.set key value) := by
  unfold set
  split
  · exact absurd rfl hkey
  · have hM : kind? "M" = some (.count 1 (some maxM)) := rfl
    rw [← bind_assoc]
    exact (checks_positive hM).heeds hM fun a ha => by simp [given, ha]
  · exact (checks_flag rfl).heeds rfl fun a ha => by simp [given, ha]
  · exact (checks_flag rfl).heeds rfl fun a ha => by simp [given, ha]
  · exact (checks_flag rfl).heeds rfl fun a ha => by simp [given, ha]
  · exact (checks_flag rfl).heeds rfl fun a ha => by simp [given, ha]
  · exact (checks_time rfl).heeds rfl fun a ha => by simp [given, ha]
  · have hiterate : kind? "iterate" = some (.count 1 none) := rfl
    rw [← bind_assoc]
    exact (checks_positive hiterate).heeds hiterate fun a ha => by simp [given, ha]
  · exact (checks_flag rfl).heeds rfl fun a ha => by simp [given, ha]
  · refine .inr ⟨_, .unknown ?_, rfl⟩
    unfold kind?
    split <;> simp_all

/-- `N` is read before the other fields. -/
theorem set_N (s : Settings) : s.set "N" value = .ok (given [("N", value)] s) := rfl

end

/-! Reading all fields. -/

variable {fields : List (String × Json)}

theorem set_of_accepted (s : Settings) {field : String × Json} (h : Accepted field) :
    s.set field.1 field.2 = .ok (given [field] s) := by
  by_cases hkey : field.1 = "N"
  · obtain ⟨key, value⟩ := field
    subst hkey
    exact set_N s
  · rcases heeds_set s hkey with ⟨-, hset⟩ | ⟨e, he, -⟩
    · exact hset
    · exact absurd h he.not_accepted

theorem foldlM_of_accepted (hordered : Json.Ordered fields) (h : ∀ field ∈ fields, Accepted field) (s : Settings) :
    fields.foldlM (fun s field => s.set field.1 field.2) s = .ok (given fields s) := by
  induction fields generalizing s with
  | nil => rfl
  | cons field fields ih =>
    obtain ⟨hfirst, hrest⟩ := List.pairwise_cons.1 hordered
    obtain ⟨hfield, hfields⟩ := List.forall_mem_cons.1 h
    rw [List.foldlM_cons, set_of_accepted s hfield, ok_bind, ih hrest hfields,
      given_cons fun p hp => (hfirst p hp).ne]

/-- The ways in which reading settings ends. -/
inductive Reading (fields : List (String × Json)) : Except Failure Settings → Prop
  | missing (h : ∀ value, ("N", value) ∉ fields) : Reading fields (.error (.refused (.missingSetting "N")))
  | mistaken {value mistake} (hN : ("N", value) ∈ fields)
    (h : (Kind.count 0 (some 8)).Mistaken value mistake) :
    Reading fields (.error (.refused (.invalidSetting "N" mistake)))
  | offended {n before field after e} (hN : ("N", .number (.nat n)) ∈ fields) (hn : n ≤ 8)
    (hfields : fields = before ++ field :: after) (hbefore : ∀ p ∈ before, Accepted p) (h : Offence field e) :
    Reading fields (.error e)
  | complete {n} (hN : ("N", .number (.nat n)) ∈ fields) (h : ∀ field ∈ fields, Accepted field) :
    Reading fields (.ok (given fields { n }))

theorem accepted_N_iff {value : Json} : Accepted ("N", value) ↔ ∃ n ≤ 8, value = .number (.nat n) := by
  constructor
  · rintro ⟨kind, hkind, h⟩
    cases hkind
    obtain ⟨n, rfl, -, hle⟩ := h
    exact ⟨n, hle _ rfl, rfl⟩
  · rintro ⟨n, hn, rfl⟩
    exact ⟨_, rfl, n, rfl, Nat.zero_le n, by simpa using hn⟩

theorem reading_foldlM (hordered : Json.Ordered fields) {n : Nat} (hN : ("N", .number (.nat n)) ∈ fields)
    (hn : n ≤ 8) :
    Reading fields (fields.foldlM (fun s field => s.set field.1 field.2) { n }) := by
  classical
  cases hfirst : fields.find? fun field => ¬Accepted field with
  | none =>
    have hall : ∀ field ∈ fields, Accepted field := by simpa using hfirst
    rw [foldlM_of_accepted hordered hall]
    exact .complete hN hall
  | some field =>
    obtain ⟨hfield, before, after, rfl, hbefore⟩ := List.find?_eq_some_iff_append.1 hfirst
    replace hfield : ¬Accepted field := by simpa using hfield
    replace hbefore : ∀ p ∈ before, Accepted p := by simpa using hbefore
    have haccepted := accepted_N_iff.2 ⟨n, hn, rfl⟩
    have hkey : field.1 ≠ "N" := by
      intro hkey
      obtain ⟨key, value⟩ := field
      subst hkey
      rw [hordered.value_eq hN (List.mem_append_right _ List.mem_cons_self)] at haccepted
      exact hfield haccepted
    rw [List.foldlM_append, foldlM_of_accepted (List.pairwise_append.1 hordered).1 hbefore, ok_bind,
      List.foldlM_cons]
    rcases heeds_set _ hkey with ⟨haccepted, -⟩ | ⟨e, he, hset⟩
    · exact absurd haccepted hfield
    · rw [hset]
      exact .offended hN hn rfl hbefore he

theorem reading_ofFields (hordered : Json.Ordered fields) : Reading fields (ofFields fields) := by
  unfold ofFields
  cases hvalue : Json.lookup "N" fields with
  | none =>
    refine .missing fun value hmem => ?_
    cases hvalue.symm.trans (hordered.lookup_of_mem hmem)
  | some value =>
    have hmem := Json.mem_of_lookup hvalue
    dsimp only
    rcases count_cases "N" value with ⟨n, rfl, hcount⟩ | ⟨hnot, hcount⟩
    · rw [hcount, ok_bind]
      split
      · next hlarge => exact .mistaken hmem (.tooLarge hlarge)
      · next hle => exact reading_foldlM hordered hmem (not_lt.1 hle)
    · rw [hcount]
      exact .mistaken hmem (.notCount hnot)

/-- The bounds that settings keep. -/
structure InRange (s : Settings) : Prop where
  n : s.n ≤ 8
  m : ∀ m ∈ s.m, 1 ≤ m ∧ m ≤ 8
  iterate : 1 ≤ s.iterate
  maxTime : s.maxTime.wholeSeconds < 2 ^ 64

theorem setting_cases {α : Type} (name : String) (read : Json → Option α) (fields : List (String × Json)) (unset : α) :
    setting name read fields unset = unset ∨
      ∃ value, (name, value) ∈ fields ∧ read value = some (setting name read fields unset) := by
  unfold setting
  cases hvalue : Json.lookup name fields with
  | none => exact .inl rfl
  | some value =>
    cases hread : read value with
    | none => exact .inl (by rw [Option.bind_some, hread]; rfl)
    | some a => exact .inr ⟨value, Json.mem_of_lookup hvalue, by rw [Option.bind_some, hread]; rfl⟩

theorem inRange_given {n : Nat} (hn : n ≤ 8) (h : ∀ field ∈ fields, Accepted field) :
    InRange (given fields { n }) where
  n := hn
  m := by
    intro m hm
    change setting "M" _ fields none = some m at hm
    rcases setting_cases "M" (fun value => value.nat?.map some) fields none with hunset | ⟨value, hvalue, hread⟩
    · rw [hunset] at hm
      cases hm
    · rw [hm] at hread
      obtain ⟨k, rfl, hpos, hle⟩ := (h _ hvalue).admits rfl
      cases hread
      exact ⟨hpos, hle _ rfl⟩
  iterate := by
    rcases setting_cases "iterate" Json.nat? fields 1 with hunset | ⟨value, hvalue, hread⟩
    · exact hunset.ge
    · obtain ⟨k, rfl, hpos, -⟩ := (h _ hvalue).admits rfl
      exact hpos.trans_eq (Option.some.inj hread)
  maxTime := by
    rcases setting_cases "max_time" (fun value => value.double?.map Duration.nearest) fields ⟨Duration.perSecond⟩
      with hunset | ⟨value, hvalue, hread⟩
    · change Duration.wholeSeconds (setting "max_time" _ fields _) < _
      rw [hunset]
      decide
    · obtain ⟨x, hx, hlt⟩ := (h _ hvalue).admits rfl
      rw [hx.double] at hread
      change Duration.wholeSeconds (setting "max_time" _ fields _) < _
      rw [← Option.some.inj hread]
      exact Duration.wholeSeconds_nearest_lt hlt

namespace Reading

variable {x : Except Failure Settings}

theorem eq_ok_iff (h : Reading fields x) (hordered : Json.Ordered fields) {s : Settings} :
    x = .ok s ↔
      ∃ n, ("N", .number (.nat n)) ∈ fields ∧ (∀ field ∈ fields, Accepted field) ∧ s = given fields { n } := by
  constructor
  · rintro rfl
    cases h with
    | complete hN haccepted => exact ⟨_, hN, haccepted, rfl⟩
  · rintro ⟨n, hN, haccepted, rfl⟩
    cases h with
    | missing hmissing => exact absurd hN (hmissing _)
    | mistaken hN' hmistaken => exact absurd ((haccepted _ hN').admits rfl) hmistaken.not_admits
    | offended _ _ hfields _ hoffence =>
      exact absurd (haccepted _ (hfields ▸ List.mem_append_right _ List.mem_cons_self)) hoffence.not_accepted
    | complete hN' _ =>
      cases hordered.value_eq hN hN'
      rfl

theorem eq_of_missing (h : Reading fields x) (hmissing : ∀ value, ("N", value) ∉ fields) :
    x = .error (.refused (.missingSetting "N")) := by
  cases h with
  | missing _ => rfl
  | mistaken hN _ => exact absurd hN (hmissing _)
  | offended hN _ _ _ _ => exact absurd hN (hmissing _)
  | complete hN _ => exact absurd hN (hmissing _)

theorem exists_mistake (h : Reading fields x) (hordered : Json.Ordered fields) {value : Json}
    (hN : ("N", value) ∈ fields) (hvalue : ¬Accepted ("N", value)) :
    ∃ mistake, (Kind.count 0 (some 8)).Mistaken value mistake ∧
      x = .error (.refused (.invalidSetting "N" mistake)) := by
  cases h with
  | missing hmissing => exact absurd hN (hmissing _)
  | mistaken hN' hmistaken =>
    cases hordered.value_eq hN hN'
    exact ⟨_, hmistaken, rfl⟩
  | offended hN' hn _ _ _ =>
    cases hordered.value_eq hN hN'
    exact absurd (accepted_N_iff.2 ⟨_, hn, rfl⟩) hvalue
  | complete _ haccepted => exact absurd (haccepted _ hN) hvalue

theorem exists_offence (h : Reading fields x) (hordered : Json.Ordered fields) {n : Nat} {field : String × Json}
    (hN : ("N", .number (.nat n)) ∈ fields) (hn : n ≤ 8) (hmem : field ∈ fields) (hfield : ¬Accepted field)
    (hleast : ∀ other ∈ fields, ¬Accepted other → Json.bytes field.1 ≤ Json.bytes other.1) :
    ∃ e, Offence field e ∧ x = .error e := by
  cases h with
  | missing hmissing => exact absurd hN (hmissing _)
  | mistaken hN' hmistaken =>
    cases hordered.value_eq hN hN'
    exact absurd ((accepted_N_iff.2 ⟨n, hn, rfl⟩).admits rfl) hmistaken.not_admits
  | @offended _ before first after e _ _ hfields hbefore hoffence =>
    subst hfields
    -- the field cannot stand before the first that offends, nor after it with a smaller name
    rcases List.mem_append.1 hmem with hin | hin
    · exact absurd (hbefore _ hin) hfield
    · rcases List.mem_cons.1 hin with rfl | hin
      · exact ⟨e, hoffence, rfl⟩
      · have hlt : first.1 < field.1 := (List.pairwise_cons.1 (List.pairwise_append.1 hordered).2.1).1 field hin
        have hle := hleast first (List.mem_append_right _ List.mem_cons_self) hoffence.not_accepted
        exact absurd (Json.bytes_lt_iff.2 hlt) (List.not_lt.2 hle)
  | complete _ haccepted => exact absurd (haccepted _ hmem) hfield

theorem overlong_of_fault {fault : Fault} (h : Reading fields (.error (.fault fault))) :
    fault = .duration ∧ ∃ value x, ("max_time", value) ∈ fields ∧ Lasts value x ∧
      2 ^ 64 ≤ (Binary64.ofFloat x).magnitude := by
  cases h with
  | @offended _ before field after _ _ _ hfields _ hoffence =>
    cases hoffence with
    | @overlong key value x hkind hx hle =>
      have hkey : key = "max_time" := kind?_seconds hkind
      subst hkey hfields
      exact ⟨rfl, value, x, List.mem_append_right _ List.mem_cons_self, hx, hle⟩

end Reading

/-- The fields of an object are its entries, the last of each name. Settings are read if and only if `N` is
given and every field is a setting with a value of its kind; they then hold what the fields give, within
their bounds. Otherwise the reason is that of `N`, if it is missing or mistaken, and else that of the
offending field whose name is first in the order of bytes. A promise is broken only by a time that no
duration holds. -/
theorem settings_are_read_in_name_order (entries : List (String × Json)) :
    let fields := Json.collect entries
    (∀ name value, (name, value) ∈ fields ↔ Json.lookup name entries.reverse = some value) ∧
    (∀ s, ofFields fields = .ok s ↔
      ∃ n, ("N", .number (.nat n)) ∈ fields ∧ (∀ field ∈ fields, Accepted field) ∧ s = given fields { n }) ∧
    (∀ s, ofFields fields = .ok s → InRange s) ∧
    ((∀ value, ("N", value) ∉ fields) → ofFields fields = .error (.refused (.missingSetting "N"))) ∧
    (∀ value, ("N", value) ∈ fields → ¬Accepted ("N", value) →
      ∃ mistake, (Kind.count 0 (some 8)).Mistaken value mistake ∧
        ofFields fields = .error (.refused (.invalidSetting "N" mistake))) ∧
    (∀ n field, ("N", .number (.nat n)) ∈ fields → n ≤ 8 → field ∈ fields → ¬Accepted field →
      (∀ other ∈ fields, ¬Accepted other → Json.bytes field.1 ≤ Json.bytes other.1) →
      ∃ e, Offence field e ∧ ofFields fields = .error e) ∧
    (∀ fault, ofFields fields = .error (.fault fault) →
      fault = .duration ∧ ∃ value x, ("max_time", value) ∈ fields ∧ Lasts value x ∧
        2 ^ 64 ≤ (Binary64.ofFloat x).magnitude) := by
  intro fields
  have hordered : Json.Ordered fields := Json.ordered_collect entries
  have hreading := reading_ofFields hordered
  refine ⟨fun name value => Json.mem_collect entries, fun s => hreading.eq_ok_iff hordered, fun s hs => ?_,
    hreading.eq_of_missing, fun value => hreading.exists_mistake hordered,
    fun n field => hreading.exists_offence hordered, fun fault hfault => (hfault ▸ hreading).overlong_of_fault⟩
  obtain ⟨n, hN, haccepted, rfl⟩ := (hreading.eq_ok_iff hordered).1 hs
  obtain ⟨k, hk, heq⟩ := accepted_N_iff.1 (haccepted _ hN)
  cases heq
  exact inRange_given hk haccepted

/-- A positive number of seconds beyond every duration is not refused. -/
theorem overlong_time_is_not_refused :
    ofFields (Json.collect [("N", .number (.nat 3)), ("max_time", .number (.double 1e20))]) =
      .error (.fault .duration) := by
  have htime : Duration.ofSeconds 1e20 = .error .duration := by decide +kernel
  have hfinite : (1e20 : Float).isFinite = true := by decide +kernel
  have hpositive : (0.0 : Float) < 1e20 := by decide +kernel
  have hset (s : Settings) : s.set "max_time" (.number (.double 1e20)) = .error (.fault .duration) := by
    simp [set, time, Json.double?, hfinite, hpositive, htime, Failure.ofFault]
  change Settings.set { n := 3 } "max_time" (.number (.double 1e20)) >>= pure = _
  rw [hset]
  rfl

end Settings

end Countermodels
