import SingleTable.Json.Basic

/-! Placeholders of a request's expressions.

An expression never contains a physical name or a value, only placeholders that
two maps of the request resolve. A new placeholder is its base, if that is free,
or else the base followed by the least number that makes it free. The search
tries no more candidates than the maps have entries and one: candidates differ
from each other, so one of these is free. -/
namespace SingleTable

/-- The least free number from `start` on, of `room + 1` numbers. -/
def firstFree (free : Nat → Bool) : (room start : Nat) → Nat
  | 0, start => start
  | room + 1, start => if free start then start else firstFree free room (start + 1)

theorem le_firstFree (free : Nat → Bool) (room start : Nat) : start ≤ firstFree free room start := by
  induction room generalizing start with
  | zero => exact Nat.le_refl _
  | succ room ih =>
    rw [firstFree]
    split
    · exact Nat.le_refl _
    · exact Nat.le_trans (Nat.le_succ _) (ih _)

theorem firstFree_le (free : Nat → Bool) (room start : Nat) :
    firstFree free room start ≤ start + room := by
  induction room generalizing start with
  | zero => exact Nat.le_refl _
  | succ room ih =>
    rw [firstFree]
    split
    · omega
    · have := ih (start + 1)
      omega

theorem not_free_of_lt_firstFree {free : Nat → Bool} {room start n : Nat} (hs : start ≤ n)
    (hn : n < firstFree free room start) : free n = false := by
  induction room generalizing start with
  | zero => exact absurd hn (Nat.not_lt.mpr hs)
  | succ room ih =>
    rw [firstFree] at hn
    split at hn
    · exact absurd hn (Nat.not_lt.mpr hs)
    · next hfree =>
      by_cases he : n = start
      · rw [he]
        simpa using hfree
      · exact ih (by omega) hn

namespace Placeholder

def ofName (identifier : String) : String := "#" ++ identifier

def ofValue (identifier : String) : String := ":" ++ identifier

/-- The candidates for a base: the base itself, and with a number after it. The number that is found is at
most that of the entries of the maps (`firstFree_le`), so as long as these are fewer than `2^31 - 1`, a
signed counter of 32 bits is enough for it. -/
def candidate (base : String) (n : Nat) : String := if n = 0 then base else base ++ toString n

/-- A name placeholder is free for a field if no map binds it to another field. -/
def freeName (names taken : Dict String) (field placeholder : String) : Bool :=
  (names.get? placeholder).all (· == field) && (taken.get? placeholder).all (· == field)

/-- Bind a name placeholder to a field: the placeholder and the extended map. -/
def bindName (names taken : Dict String) (base field : String) : String × Dict String :=
  let n := firstFree (fun n => freeName names taken field (candidate base n)) (names.size + taken.size) 0
  (candidate base n, names.insert (candidate base n) field)

/-- A value placeholder is free if no map has it. -/
def freeValue (values taken : Dict Json) (placeholder : String) : Bool :=
  !values.contains placeholder && !taken.contains placeholder

/-- Bind a value placeholder to a value: the placeholder and the extended map. -/
def bindValue (values taken : Dict Json) (base : String) (value : Json) : String × Dict Json :=
  let n := firstFree (fun n => freeValue values taken (candidate base n)) (values.size + taken.size) 0
  (candidate base n, values.insert (candidate base n) value)

end Placeholder

end SingleTable
