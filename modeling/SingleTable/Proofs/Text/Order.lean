import Mathlib.Data.Char
import Mathlib.Data.List.Infix
import Mathlib.Data.List.Lex

/-! The byte order of texts.

A store compares strings by their bytes. The encoding keeps the order of the
characters (`bytes_lt_iff`), so that nothing need be said about bytes but this.
Where two texts differ within their stems, the parts up to the first `#`, the
stems decide which of the texts is less and whether one begins the other. -/
namespace SingleTable.Text

/-! ### Bytes -/

def bytes (text : List Char) : List UInt8 := text.flatMap String.utf8EncodeChar

/-- These are the bytes of a string. -/
theorem toByteArray_bytes (s : String) : (bytes s.toList).toByteArray = s.toByteArray := String.utf8Encode_toList

theorem bytes_cons (c : Char) (text : List Char) : bytes (c :: text) = String.utf8EncodeChar c ++ bytes text :=
  List.flatMap_cons

/-- The first of two digits in which two numbers differ has their order. -/
theorem digits_lt {m n : Nat} (h : m < n) : m / 64 < n / 64 ∨ m / 64 = n / 64 ∧ m % 64 < n % 64 := by
  omega

theorem digits_lt_three {m n : Nat} (h : m < n) :
    m / 4096 < n / 4096 ∨ m / 4096 = n / 4096 ∧
      (m / 64 % 64 < n / 64 % 64 ∨ m / 64 % 64 = n / 64 % 64 ∧ m % 64 < n % 64) := by
  have hsquare (k : Nat) : k / 64 / 64 = k / 4096 := Nat.div_div_eq_div_mul k 64 64
  rw [← hsquare, ← hsquare]
  rcases digits_lt h with h | ⟨h, hlast⟩
  · exact (digits_lt h).imp_right fun ⟨hsame, hlast⟩ => ⟨hsame, .inl hlast⟩
  · exact .inr ⟨by rw [h], .inr ⟨by rw [h], hlast⟩⟩

theorem digits_lt_four {m n : Nat} (h : m < n) :
    m / 262144 < n / 262144 ∨ m / 262144 = n / 262144 ∧
      (m / 4096 % 64 < n / 4096 % 64 ∨ m / 4096 % 64 = n / 4096 % 64 ∧
        (m / 64 % 64 < n / 64 % 64 ∨ m / 64 % 64 = n / 64 % 64 ∧ m % 64 < n % 64)) := by
  have hsquare (k : Nat) : k / 64 / 64 = k / 4096 := Nat.div_div_eq_div_mul k 64 64
  have hcube (k : Nat) : k / 64 / 4096 = k / 262144 := Nat.div_div_eq_div_mul k 64 4096
  rw [← hsquare, ← hsquare, ← hcube, ← hcube]
  rcases digits_lt h with h | ⟨h, hlast⟩
  · exact (digits_lt_three h).imp_right fun ⟨hsame, hrest⟩ =>
      ⟨hsame, hrest.imp_right fun ⟨hsame, hlast⟩ => ⟨hsame, .inl hlast⟩⟩
  · exact .inr ⟨by rw [h], .inr ⟨by rw [h], .inr ⟨by rw [h], hlast⟩⟩⟩

theorem cons_byte_lt {a b : Nat} {x y : List UInt8} (hb : b < 256) (h : a < b ∨ a = b ∧ x < y) :
    UInt8.ofNat a :: x < UInt8.ofNat b :: y := by
  rw [List.cons_lt_cons_iff]
  rcases h with h | ⟨rfl, h⟩
  · left
    rw [UInt8.lt_iff_toNat_lt, UInt8.toNat_ofNat', UInt8.toNat_ofNat']
    omega
  · exact .inr ⟨rfl, h⟩

/-- Bytes that hold a digit beside the same mark are ordered like the digits. -/
theorem cons_digit_lt {a b mark : Nat} {x y : List UInt8} (hb : b + mark < 256) (h : a < b ∨ a = b ∧ x < y) :
    UInt8.ofNat (a + mark) :: x < UInt8.ofNat (b + mark) :: y :=
  cons_byte_lt hb (h.imp (fun hless => Nat.add_lt_add_right hless mark) fun ⟨hsame, hrest⟩ => ⟨by rw [hsame], hrest⟩)

/-- The first byte in which two characters differ has their order, and both have such a byte. -/
theorem encode_lt {c d : Char} (h : c < d) (x y : List UInt8) :
    String.utf8EncodeChar c ++ x < String.utf8EncodeChar d ++ y := by
  have hlt : c.val.toNat < d.val.toNat := h
  have hbound : d.val.toNat < 1114112 := by
    rcases d.valid with hd | ⟨-, hd⟩
    · exact Nat.lt_trans hd (by decide)
    · exact hd
  rw [String.utf8EncodeChar.eq_1, String.utf8EncodeChar.eq_1]
  generalize c.val.toNat = m at hlt
  generalize d.val.toNat = n at hlt hbound
  -- A longer code begins with a larger byte; in codes of one length every byte holds a digit.
  split
  · repeat' split
    all_goals exact cons_byte_lt (by omega) (.inl (by omega))
  rw [if_neg (show ¬ n ≤ 127 by omega)]
  split
  · split
    · refine cons_digit_lt (by omega) ?_
      rw [Nat.mod_eq_of_lt (show m / 64 < 32 by omega), Nat.mod_eq_of_lt (show n / 64 < 32 by omega)]
      exact (digits_lt hlt).imp_right fun ⟨hsame, hlast⟩ => ⟨hsame, cons_digit_lt (by omega) (.inl hlast)⟩
    · split <;> exact cons_byte_lt (by omega) (.inl (by omega))
  rw [if_neg (show ¬ n ≤ 2047 by omega)]
  split
  · split
    · refine cons_digit_lt (by omega) ?_
      rw [Nat.mod_eq_of_lt (show m / 4096 < 16 by omega), Nat.mod_eq_of_lt (show n / 4096 < 16 by omega)]
      exact (digits_lt_three hlt).imp_right fun ⟨hsame, hrest⟩ => ⟨hsame, cons_digit_lt (by omega)
        (hrest.imp_right fun ⟨hsame, hlast⟩ => ⟨hsame, cons_digit_lt (by omega) (.inl hlast)⟩)⟩
    · exact cons_byte_lt (by omega) (.inl (by omega))
  · rw [if_neg (show ¬ n ≤ 65535 by omega)]
    refine cons_digit_lt (by omega) ?_
    rw [Nat.mod_eq_of_lt (show m / 262144 < 8 by omega), Nat.mod_eq_of_lt (show n / 262144 < 8 by omega)]
    exact (digits_lt_four hlt).imp_right fun ⟨hsame, hrest⟩ => ⟨hsame, cons_digit_lt (by omega)
      (hrest.imp_right fun ⟨hsame, hrest⟩ => ⟨hsame, cons_digit_lt (by omega)
        (hrest.imp_right fun ⟨hsame, hlast⟩ => ⟨hsame, cons_digit_lt (by omega) (.inl hlast)⟩)⟩)⟩

/-! ### Order -/

theorem lt_of_append_left {start a b : List UInt8} (h : start ++ a < start ++ b) : a < b := by
  by_contra hnot
  rcases List.le_iff_lt_or_eq.mp (List.not_lt.mp hnot) with hgt | rfl
  · exact List.lt_asymm h (List.append_left_lt hgt)
  · exact List.lt_irrefl _ h

/-- **The bytes of two texts have the order of the texts.** -/
theorem bytes_lt_iff {a b : List Char} : bytes a < bytes b ↔ a < b := by
  induction a generalizing b with
  | nil =>
    cases b with
    | nil => exact iff_of_false (List.not_lt_nil _) (List.not_lt_nil _)
    | cons d b =>
      obtain ⟨byte, rest, hencode⟩ := List.exists_cons_of_ne_nil (@String.utf8EncodeChar_ne_nil d)
      rw [bytes_cons, hencode]
      exact iff_of_true (List.nil_lt_cons ..) (List.nil_lt_cons ..)
  | cons c a ih =>
    cases b with
    | nil => exact iff_of_false (List.not_lt_nil _) (List.not_lt_nil _)
    | cons d b =>
      rw [bytes_cons, bytes_cons, List.cons_lt_cons_iff]
      rcases lt_trichotomy c d with hlt | rfl | hgt
      · exact iff_of_true (encode_lt hlt _ _) (.inl hlt)
      · rw [← ih]
        exact ⟨fun h => .inr ⟨rfl, lt_of_append_left h⟩, fun h => List.append_left_lt (h.resolve_left (lt_irrefl c)).2⟩
      · refine iff_of_false (List.lt_asymm (encode_lt hgt _ _)) ?_
        rintro (hlt | ⟨rfl, -⟩)
        · exact lt_asymm hlt hgt
        · exact lt_irrefl _ hgt

theorem cons_le_cons_iff {c d : Char} {a b : List Char} : c :: a ≤ d :: b ↔ c < d ∨ c = d ∧ a ≤ b := by
  -- The order of the library is linear by its negation, that of the core by definition.
  have hle {x y : List Char} : x ≤ y ↔ @LE.le _ List.instLE x y := not_lt.symm.trans List.not_lt
  rw [hle, hle, List.cons_le_cons_iff]

theorem le_of_begins {a b : List Char} (h : a <+: b) : a ≤ b := not_lt.mp (List.not_lt.mpr h.le)

/-- A text between another and what goes on from it goes on from it. -/
theorem begins_of_between {a x t : List Char} (hlow : a ≤ x) (hhigh : x ≤ a ++ t) : a <+: x := by
  induction a generalizing x with
  | nil => exact List.nil_prefix
  | cons c a ih =>
    cases x with
    | nil => exact absurd (List.nil_lt_cons c a) (not_lt.mpr hlow)
    | cons d x =>
      rcases cons_le_cons_iff.mp hlow with hcd | ⟨rfl, hbelow⟩
      · rcases cons_le_cons_iff.mp hhigh with hdc | ⟨rfl, -⟩
        · exact absurd hcd (lt_asymm hdc)
        · exact absurd hcd (lt_irrefl _)
      · rcases cons_le_cons_iff.mp hhigh with hcc | ⟨-, habove⟩
        · exact absurd hcc (lt_irrefl _)
        · exact List.cons_prefix_cons.mpr ⟨rfl, ih hbelow habove⟩

theorem bytes_le_iff {a b : List Char} : bytes a ≤ bytes b ↔ a ≤ b :=
  List.not_lt.symm.trans ((not_congr bytes_lt_iff).trans not_lt)

/-- The codes of different characters differ before either of them ends. -/
theorem eq_of_encode {c d : Char} {x y : List UInt8}
    (h : String.utf8EncodeChar c ++ x = String.utf8EncodeChar d ++ y) : c = d := by
  rcases lt_trichotomy c d with hlt | hsame | hgt
  · exact absurd (h ▸ encode_lt hlt x y) (List.lt_irrefl _)
  · exact hsame
  · exact absurd (h ▸ encode_lt hgt y x) (List.lt_irrefl _)

/-- **The bytes of a text begin with those of another if it begins with that text.** -/
theorem bytes_begins_iff {a b : List Char} : bytes a <+: bytes b ↔ a <+: b := by
  constructor
  · intro h
    induction a generalizing b with
    | nil => exact List.nil_prefix
    | cons c a ih =>
      cases b with
      | nil =>
        rw [bytes_cons] at h
        exact absurd (List.append_eq_nil_iff.mp (List.prefix_nil.mp h)).1 String.utf8EncodeChar_ne_nil
      | cons d b =>
        obtain ⟨rest, hrest⟩ := h
        rw [bytes_cons, bytes_cons, List.append_assoc] at hrest
        obtain rfl := eq_of_encode hrest
        exact List.cons_prefix_cons.mpr ⟨rfl, ih ⟨rest, List.append_cancel_left hrest⟩⟩
  · rintro ⟨rest, rfl⟩
    exact ⟨bytes rest, List.flatMap_append.symm⟩

/-! ### Stems -/

/-- The part of a text up to its first `#`, or all of it. -/
def stem : List Char → List Char
  | [] => []
  | c :: text => if c = '#' then ['#'] else c :: stem text

theorem stem_cons (c : Char) (text : List Char) :
    stem (c :: text) = c :: if c = '#' then [] else stem text := by
  rw [stem]
  split
  · next h => rw [h]
  · rfl

theorem stem_append {plain : List Char} (h : '#' ∉ plain) (text : List Char) :
    stem (plain ++ text) = plain ++ stem text := by
  induction plain with
  | nil => rfl
  | cons c plain ih =>
    rw [List.mem_cons, not_or] at h
    rw [List.cons_append, stem_cons, if_neg (Ne.symm h.1), ih h.2]
    rfl

/-- Texts that begin with the same character and have different stems go on with different stems. -/
theorem stem_ne_of_cons {c : Char} {a b : List Char} (h : stem (c :: a) ≠ stem (c :: b)) :
    c ≠ '#' ∧ stem a ≠ stem b := by
  rw [stem_cons, stem_cons] at h
  constructor
  · rintro rfl
    exact h rfl
  · intro hsame
    exact h (by rw [hsame])

/-- **Texts with different stems are ordered like these.** -/
theorem lt_iff_of_stem_ne {a b : List Char} (h : stem a ≠ stem b) : a < b ↔ stem a < stem b := by
  induction a generalizing b with
  | nil =>
    cases b with
    | nil => exact absurd rfl h
    | cons d b =>
      rw [stem_cons]
      exact iff_of_true (List.nil_lt_cons ..) (List.nil_lt_cons ..)
  | cons c a ih =>
    cases b with
    | nil => exact iff_of_false (List.not_lt_nil _) (List.not_lt_nil _)
    | cons d b =>
      rw [stem_cons, stem_cons, List.cons_lt_cons_iff, List.cons_lt_cons_iff]
      refine or_congr_right (and_congr_right ?_)
      rintro rfl
      obtain ⟨hc, hrest⟩ := stem_ne_of_cons h
      rw [if_neg hc, if_neg hc]
      exact ih hrest

theorem le_iff_of_stem_ne {a b : List Char} (h : stem a ≠ stem b) : a ≤ b ↔ stem a ≤ stem b :=
  not_lt.symm.trans ((not_congr (lt_iff_of_stem_ne (Ne.symm h))).trans not_lt)

/-- **A text begins another with a different stem only as a stem**: it is its own stem, and begins
that of the other. -/
theorem begins_iff_of_stem_ne {a b : List Char} (h : stem a ≠ stem b) : a <+: b ↔ stem a = a ∧ a <+: stem b := by
  induction a generalizing b with
  | nil => exact iff_of_true List.nil_prefix ⟨rfl, List.nil_prefix⟩
  | cons c a ih =>
    cases b with
    | nil => simp [stem]
    | cons d b =>
      rw [stem_cons, stem_cons, List.cons_prefix_cons, List.cons_prefix_cons, List.cons_inj_right, and_left_comm]
      refine and_congr_right ?_
      rintro rfl
      obtain ⟨hc, hrest⟩ := stem_ne_of_cons h
      rw [if_neg hc, if_neg hc]
      exact ih hrest

end SingleTable.Text
