import Countermodels.Json.Value
import Mathlib

/-! The fields of an object. Names are compared as characters, which is the order of their bytes, and
setting one field after another leaves each name once, with its last value, in that order. -/

namespace Countermodels.Json

/-! Texts are ordered as their bytes are. -/

/-- The bytes of a text. -/
def bytes (s : String) : List UInt8 := s.toByteArray.data.toList

theorem bytes_eq (s : String) : bytes s = s.toList.flatMap String.utf8EncodeChar := by
  rw [bytes, ← String.utf8Encode_toList, List.utf8Encode, List.data_toByteArray]

/-- Numbers compare as their digits to the base 64 do. -/
theorem digits_lt {m n : Nat} (h : m < n) : m / 64 < n / 64 ∨ m / 64 = n / 64 ∧ m % 64 < n % 64 := by
  omega

theorem byte_cons_lt {a b : Nat} (ha : a < 256) (hb : b < 256) {u v : List UInt8} :
    UInt8.ofNat a :: u < UInt8.ofNat b :: v ↔ a < b ∨ a = b ∧ u < v := by
  rw [List.cons_lt_cons_iff, UInt8.lt_iff_toNat_lt, ← UInt8.toNat_inj, UInt8.toNat_ofNat_of_lt' ha,
    UInt8.toNat_ofNat_of_lt' hb]

theorem utf8EncodeChar_append_lt {c d : Char} (h : c < d) (u v : List UInt8) :
    String.utf8EncodeChar c ++ u < String.utf8EncodeChar d ++ v := by
  have hlt : c.val.toNat < d.val.toNat := h
  have hd : d.val.toNat < 1114112 := by
    have hvalid := d.valid
    unfold UInt32.isValidChar Nat.isValidChar at hvalid
    omega
  generalize hm : c.val.toNat = m at hlt
  generalize hn : d.val.toNat = n at hlt hd
  have hlow := digits_lt hlt
  have hmid := @digits_lt (m / 64) (n / 64)
  have hhigh := @digits_lt (m / 4096) (n / 4096)
  simp only [Nat.div_div_eq_div_mul, Nat.reduceMul] at hmid hhigh
  have htop : m / 262144 % 8 = m / 262144 ∧ n / 262144 % 8 = n / 262144 := by omega
  unfold String.utf8EncodeChar
  simp only [hm, hn, htop]
  -- a shorter code has the smaller first byte; codes of one length hold the digits, the highest first
  split_ifs <;>
    simp (disch := omega) only [List.cons_append, List.nil_append, byte_cons_lt, Nat.add_lt_add_iff_right,
      Nat.add_right_cancel_iff] <;>
    omega

theorem bytes_lt_of_lt {s t : String} (h : s < t) : bytes s < bytes t := by
  rw [String.lt_iff] at h
  rw [bytes_eq, bytes_eq]
  generalize s.toList = cs at h
  generalize t.toList = ds at h
  induction h with
  | @nil d ds =>
    have hpos : 0 < (String.utf8EncodeChar d).length := String.length_utf8EncodeChar d ▸ d.utf8Size_pos
    obtain ⟨b, bs, hb⟩ := List.exists_cons_of_ne_nil (List.ne_nil_of_length_pos hpos)
    rw [List.flatMap_cons, hb]
    exact List.Lex.nil
  | rel h => exact utf8EncodeChar_append_lt h _ _
  | cons h ih =>
    rw [List.flatMap_cons, List.flatMap_cons]
    exact List.append_left_lt ih

theorem bytes_lt_iff {s t : String} : bytes s < bytes t ↔ s < t := by
  refine ⟨fun h => ?_, bytes_lt_of_lt⟩
  rcases lt_trichotomy s t with hst | rfl | hts
  · exact hst
  · exact absurd h (List.lt_irrefl _)
  · exact absurd h (List.lt_asymm (bytes_lt_of_lt hts))

variable {α : Type} {name : String} {value : α} {fields : List (String × α)}

/-- The names ascend, so that none stands twice. -/
def Ordered (fields : List (String × α)) : Prop := fields.Pairwise fun p q => p.1 < q.1

theorem mem_of_mem_setField {p : String × α} (h : p ∈ setField name value fields) :
    p = (name, value) ∨ p ∈ fields := by
  fun_induction setField name value fields with
  | case1 => exact .inl (List.mem_singleton.1 h)
  | case2 other old rest hlt => exact (List.mem_cons.1 h)
  | case3 old rest hlt => exact (List.mem_cons.1 h).imp_right (List.mem_cons_of_mem _)
  | case4 other old rest hlt hne ih =>
    rcases List.mem_cons.1 h with rfl | h
    · exact .inr List.mem_cons_self
    · exact (ih h).imp_right (List.mem_cons_of_mem _)

theorem Ordered.setField (h : Ordered fields) : Ordered (setField name value fields) := by
  fun_induction Json.setField name value fields with
  | case1 => exact List.pairwise_singleton ..
  | case2 other old rest hlt =>
    refine List.pairwise_cons.2 ⟨fun q hq => ?_, h⟩
    rcases List.mem_cons.1 hq with rfl | hq
    · exact hlt
    · exact hlt.trans ((List.pairwise_cons.1 h).1 q hq)
  | case3 old rest hlt => exact List.pairwise_cons.2 (List.pairwise_cons.1 h)
  | case4 other old rest hlt hne ih =>
    obtain ⟨hother, hrest⟩ := List.pairwise_cons.1 h
    refine List.pairwise_cons.2 ⟨fun q hq => ?_, ih hrest⟩
    rcases mem_of_mem_setField hq with rfl | hq
    · exact lt_of_le_of_ne (not_lt.1 hlt) (Ne.symm hne)
    · exact hother q hq

theorem lookup_cons (p : String × α) :
    lookup name (p :: fields) = if p.1 = name then some p.2 else lookup name fields := by
  unfold lookup
  by_cases h : p.1 = name
  · rw [List.find?_cons_of_pos (by simpa using h), if_pos h, Option.map_some]
  · rw [List.find?_cons_of_neg (by simpa using h), if_neg h]

theorem lookup_eq_none (h : ∀ p ∈ fields, p.1 ≠ name) : lookup name fields = none := by
  rw [lookup, List.find?_eq_none.2 fun p hp => by simpa using h p hp, Option.map_none]

theorem mem_of_lookup (h : lookup name fields = some value) : (name, value) ∈ fields := by
  obtain ⟨p, hp, rfl⟩ := Option.map_eq_some_iff.1 h
  have hname : p.1 = name := by simpa using List.find?_some hp
  exact hname ▸ List.mem_of_find?_eq_some hp

theorem Ordered.lookup_of_mem (h : Ordered fields) (hmem : (name, value) ∈ fields) :
    lookup name fields = some value := by
  induction fields with
  | nil => cases hmem
  | cons p rest ih =>
    obtain ⟨hfirst, hrest⟩ := List.pairwise_cons.1 h
    rw [lookup_cons]
    rcases List.mem_cons.1 hmem with rfl | hmem
    · rw [if_pos rfl]
    · rw [if_neg (hfirst _ hmem).ne, ih hrest hmem]

theorem Ordered.value_eq {other : α} (h : Ordered fields) (hvalue : (name, value) ∈ fields)
    (hother : (name, other) ∈ fields) : value = other :=
  Option.some.inj ((h.lookup_of_mem hvalue).symm.trans (h.lookup_of_mem hother))

theorem lookup_setField {other : String} :
    lookup name (setField other value fields) = if other = name then some value else lookup name fields := by
  fun_induction setField other value fields with
  | case1 => exact lookup_cons _
  | case2 => exact lookup_cons _
  | case3 =>
    rw [lookup_cons, lookup_cons]
    split <;> rfl
  | case4 first old rest hlt hne ih =>
    rw [lookup_cons, lookup_cons, ih]
    by_cases hfirst : first = name
    · rw [if_pos hfirst, if_neg fun h => hne (h.trans hfirst.symm), if_pos hfirst]
    · rw [if_neg hfirst, if_neg hfirst]

/-- The object with these entries, as they are written one after another. -/
def collect (entries : List (String × α)) : List (String × α) :=
  entries.foldl (fun fields entry => setField entry.1 entry.2 fields) []

theorem collect_append_singleton (entries : List (String × α)) (entry : String × α) :
    collect (entries ++ [entry]) = setField entry.1 entry.2 (collect entries) :=
  List.foldl_append

theorem ordered_collect (entries : List (String × α)) : Ordered (collect entries) := by
  induction entries using List.reverseRecOn with
  | nil => exact List.Pairwise.nil
  | append_singleton entries entry ih =>
    rw [collect_append_singleton]
    exact ih.setField

/-- Of a repeated name the last value counts. -/
theorem mem_collect (entries : List (String × α)) :
    (name, value) ∈ collect entries ↔ lookup name entries.reverse = some value := by
  have hlookup : lookup name (collect entries) = lookup name entries.reverse := by
    induction entries using List.reverseRecOn with
    | nil => rfl
    | append_singleton entries entry ih =>
      rw [collect_append_singleton, lookup_setField, ih, List.reverse_append, List.reverse_singleton,
        List.singleton_append, lookup_cons]
  rw [← hlookup]
  exact ⟨(ordered_collect entries).lookup_of_mem, mem_of_lookup⟩

end Countermodels.Json
