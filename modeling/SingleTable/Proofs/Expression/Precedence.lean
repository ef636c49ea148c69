import SingleTable.Proofs.Expression.Reading

/-! When a phrase is read with the meaning of its tree.

The text of a phrase can show an OR outside of its parentheses. Next to an AND,
such an OR is read as if it were further out than the tree has it. A phrase is
guarded if this does not occur, and `forall_shown_eq_value_iff` says that the
guarded phrases are exactly those whose text has the value of the tree for all
outcomes of the tests. -/
namespace SingleTable

open Grammar

/-! ### Values -/

/-- A connective between two values. -/
def Connective.op : Connective → Bool → Bool → Bool
  | .and, a, b => a && b
  | .or, a, b => a || b

def Connective.neutral : Connective → Bool
  | .and => true
  | .or => false

def Connective.value (connective : Connective) (values : List Bool) : Bool :=
  values.foldr connective.op connective.neutral

@[simp] theorem Connective.op_neutral (connective : Connective) (a : Bool) :
    connective.op a connective.neutral = a := by
  cases connective <;> simp [op, neutral]

@[simp] theorem Connective.neutral_op (connective : Connective) (a : Bool) :
    connective.op connective.neutral a = a := by
  cases connective <;> simp [op, neutral]

@[simp] theorem Connective.op_self (connective : Connective) (a : Bool) : connective.op a a = a := by
  cases connective <;> simp [op]

theorem Connective.value_cons (connective : Connective) (a : Bool) (values : List Bool) :
    connective.value (a :: values) = connective.op a (connective.value values) := rfl

/-- The value of rows of truth values: one of the rows holds throughout. -/
def rowsHold (rows : List (List Bool)) : Bool := rows.any (·.all id)

@[simp] theorem rowsHold_single (a : Bool) : rowsHold [[a]] = a := by simp [rowsHold]

theorem length_meet {α : Type} {xs ys : List (List α)} (hx : 0 < xs.length) (hy : 0 < ys.length) :
    (meet xs ys).length + 1 = xs.length + ys.length := by
  induction xs with
  | nil => exact absurd hx (by simp)
  | cons row rows ih =>
    cases rows with
    | nil =>
      cases ys with
      | nil => exact absurd hy (by simp)
      | cons first rest => simp [meet]; omega
    | cons next rows =>
      have hrows := ih (by simp)
      simp only [meet, List.length_cons] at hrows ⊢
      omega

/-- Linked rows have the value of the connective if it cannot cross a row. -/
theorem Connective.rowsHold_link {connective : Connective} {xs ys : List (List Bool)}
    (h : connective = .or ∨ xs.length = 1 ∧ ys.length = 1) :
    rowsHold (connective.link xs ys) = connective.op (rowsHold xs) (rowsHold ys) := by
  cases connective with
  | or => simp [link, rowsHold, op]
  | and =>
    obtain ⟨hx, hy⟩ := h.resolve_left (by simp)
    obtain ⟨x, rfl⟩ := List.length_eq_one_iff.mp hx
    obtain ⟨y, rfl⟩ := List.length_eq_one_iff.mp hy
    simp [link, meet, rowsHold, op]

/-! ### Rows with one truth value -/

structure AllAre (b : Bool) (rows : List (List Bool)) : Prop where
  filled : Filled rows
  entries : ∀ a ∈ rows.flatten, a = b

theorem AllAre.single (b : Bool) : AllAre b [[b]] := ⟨.single b, by simp⟩

theorem AllAre.link {b : Bool} {xs ys : List (List Bool)} (connective : Connective) (hx : AllAre b xs)
    (hy : AllAre b ys) : AllAre b (connective.link xs ys) := by
  refine ⟨hx.filled.link connective hy.filled, fun a ha => ?_⟩
  rw [Connective.flatten_link] at ha
  exact (List.mem_append.mp ha).elim (hx.entries a) (hy.entries a)

/-- Every row has the one truth value. -/
theorem AllAre.row {b : Bool} {rows : List (List Bool)} (h : AllAre b rows) {row : List Bool}
    (hrow : row ∈ rows) : row.all id = b := by
  have hentry (a : Bool) (ha : a ∈ row) : a = b := h.entries a (List.mem_flatten.mpr ⟨row, hrow, ha⟩)
  obtain ⟨first, rest, rfl⟩ := List.exists_cons_of_ne_nil (h.filled.row row hrow)
  cases b with
  | true => exact List.all_eq_true.mpr hentry
  | false => rw [List.all_cons, id, hentry first (List.mem_cons_self ..), Bool.false_and]

theorem AllAre.rowsHold {b : Bool} {rows : List (List Bool)} (h : AllAre b rows) : rowsHold rows = b := by
  obtain ⟨row, rest, rfl⟩ := List.exists_cons_of_ne_nil h.filled.ne_nil
  cases b with
  | true => rw [SingleTable.rowsHold, List.any_cons, h.row (List.mem_cons_self ..), Bool.true_or]
  | false => exact List.any_eq_false.mpr fun row hrow => by rw [h.row hrow]; exact Bool.false_ne_true

theorem exists_cons_cons {α : Type} {xs : List α} (h : 1 < xs.length) : ∃ x y rest, xs = x :: y :: rest := by
  match xs, h with
  | x :: y :: rest, _ => exact ⟨x, y, rest, rfl⟩

/-- A true row before the last one is met by nothing. -/
theorem rowsHold_meet_left {xs ys : List (List Bool)} (hx : AllAre true xs) (hlen : 1 < xs.length) :
    rowsHold (meet xs ys) = true := by
  obtain ⟨row, next, rows, rfl⟩ := exists_cons_cons hlen
  have hrow : row.all id = true := hx.row (List.mem_cons_self ..)
  simp [meet, rowsHold, hrow]

/-- A true row after the first one is met by nothing. -/
theorem rowsHold_meet_right {xs ys : List (List Bool)} (hy : AllAre true ys) (hlen : 1 < ys.length) :
    rowsHold (meet xs ys) = true := by
  obtain ⟨first, next, rest, rfl⟩ := exists_cons_cons hlen
  have hnext : next.all id = true := hy.row (by simp)
  induction xs with
  | nil => simp [meet, rowsHold, hnext]
  | cons row rows ih =>
    cases rows with
    | nil => simp [meet, rowsHold, hnext]
    | cons other rows =>
      rw [meet, rowsHold, List.any_cons]
      exact Bool.or_eq_true_iff.mpr (.inr ih)

namespace Phrase

/-! ### The tree and the text -/

mutual
/-- The value of the tree; `holds` decides the tests by number, from `position` on. -/
def value (holds : Nat → Bool) : Nat → Phrase → Bool
  | position, .test _ _ _ => holds position
  | position, .parens inner => value holds position inner
  | position, .chain connective parts => connective.value (valuesOf holds position parts)

def valuesOf (holds : Nat → Bool) : Nat → List Phrase → List Bool
  | _, [] => []
  | position, part :: rest =>
    value holds position part :: valuesOf holds (position + part.tests.length) rest
end

mutual
/-- The truth values of the rows that the text shows. -/
def shown (holds : Nat → Bool) : Nat → Phrase → List (List Bool)
  | position, .test _ _ _ => [[holds position]]
  | position, .parens inner => [[rowsHold (shown holds position inner)]]
  | position, .chain connective parts => shownOf holds connective position parts

def shownOf (holds : Nat → Bool) (connective : Connective) : Nat → List Phrase → List (List Bool)
  | _, [] => []
  | position, part :: rest =>
    connective.link (shown holds position part)
      (shownOf holds connective (position + part.tests.length) rest)
end

mutual
/-- Whether the text has an OR outside of parentheses. -/
def isOpen : Phrase → Bool
  | .test _ _ _ | .parens _ => false
  | .chain connective parts => (connective == .or && 1 < parts.length) || anyOpen parts

def anyOpen : List Phrase → Bool
  | [] => false
  | part :: rest => part.isOpen || anyOpen rest
end

/-- Whether an AND between parts has an OR beside it that is outside of parentheses. -/
def crosses (connective : Connective) (parts : List Phrase) : Bool :=
  connective == .and && 1 < parts.length && anyOpen parts

mutual
def guarded : Phrase → Bool
  | .test _ _ _ => true
  | .parens inner => inner.guarded
  | .chain connective parts => !crosses connective parts && allGuarded parts

def allGuarded : List Phrase → Bool
  | [] => true
  | part :: rest => part.guarded && allGuarded rest
end

/-! ### Dependence on the outcomes -/

/-- Two truth assignments agree on `count` tests from `position` on. -/
def AgreeOn (position count : Nat) (f g : Nat → Bool) : Prop :=
  ∀ n, position ≤ n → n < position + count → f n = g n

theorem AgreeOn.left {position m n : Nat} {f g : Nat → Bool} (h : AgreeOn position (m + n) f g) :
    AgreeOn position m f g := fun k hlow hhigh => h k hlow (by omega)

theorem AgreeOn.right {position m n : Nat} {f g : Nat → Bool} (h : AgreeOn position (m + n) f g) :
    AgreeOn (position + m) n f g := fun k hlow hhigh => h k (by omega) (by omega)

mutual
theorem value_shown_congr {f g : Nat → Bool} : (p : Phrase) → (position : Nat) →
    AgreeOn position p.tests.length f g →
      value f position p = value g position p ∧ shown f position p = shown g position p
  | .test _ _ _, position, h => by
    have hfirst : f position = g position := h position (Nat.le_refl _) (by simp [tests])
    simp [value, shown, hfirst]
  | .parens inner, position, h => by
    obtain ⟨hvalue, hshown⟩ := value_shown_congr inner position h
    simp only [value, shown, hvalue, hshown, and_self]
  | .chain connective parts, position, h => by
    obtain ⟨hvalues, hshown⟩ := valuesOf_shownOf_congr connective parts position h
    simp only [value, shown, hvalues, hshown, and_self]

theorem valuesOf_shownOf_congr {f g : Nat → Bool} (connective : Connective) :
    (parts : List Phrase) → (position : Nat) → AgreeOn position (testsOf parts).length f g →
      valuesOf f position parts = valuesOf g position parts ∧
        shownOf f connective position parts = shownOf g connective position parts
  | [], _, _ => ⟨rfl, rfl⟩
  | part :: rest, position, h => by
    rw [testsOf, List.length_append] at h
    obtain ⟨hvalue, hshown⟩ := value_shown_congr part position h.left
    obtain ⟨hvalues, hshownOf⟩ := valuesOf_shownOf_congr connective rest _ h.right
    simp only [valuesOf, shownOf, hvalue, hshown, hvalues, hshownOf, and_self]
end

mutual
/-- If all tests have one outcome, then everything has. -/
theorem value_shown_const (b : Bool) : (p : Phrase) → (position : Nat) → p.Linked →
    value (fun _ => b) position p = b ∧ AllAre b (shown (fun _ => b) position p)
  | .test _ _ _, _, _ => ⟨rfl, .single b⟩
  | .parens inner, position, h => by
    obtain ⟨hvalue, hshown⟩ := value_shown_const b inner position h
    refine ⟨hvalue, ?_⟩
    rw [shown, hshown.rowsHold]
    exact .single b
  | .chain connective parts, position, h => valuesOf_shownOf_const b connective parts position h.1 h.2

theorem valuesOf_shownOf_const (b : Bool) (connective : Connective) :
    (parts : List Phrase) → (position : Nat) → parts ≠ [] → AllLinked parts →
      connective.value (valuesOf (fun _ => b) position parts) = b ∧
        AllAre b (shownOf (fun _ => b) connective position parts)
  | [], _, hne, _ => absurd rfl hne
  | [part], position, _, h => by
    obtain ⟨hvalue, hshown⟩ := value_shown_const b part position h.1
    simp only [valuesOf, shownOf, Connective.link_nil, hvalue]
    exact ⟨connective.op_neutral b, hshown⟩
  | part :: next :: rest, position, _, h => by
    obtain ⟨hvalue, hshown⟩ := value_shown_const b part position h.1
    obtain ⟨hvalues, hshownOf⟩ := valuesOf_shownOf_const b connective (next :: rest)
      (position + part.tests.length) (List.cons_ne_nil _ _) h.2
    rw [valuesOf, Connective.value_cons, hvalue, hvalues, shownOf]
    exact ⟨connective.op_self b, hshown.link connective hshownOf⟩
end

/-! ### Open phrases -/

mutual
/-- A phrase shows several rows exactly if it is open. -/
theorem length_shown (holds : Nat → Bool) : (p : Phrase) → (position : Nat) → p.Linked →
    0 < (shown holds position p).length ∧ (1 < (shown holds position p).length ↔ p.isOpen = true)
  | .test _ _ _, _, _ => by simp [shown, isOpen]
  | .parens _, _, _ => by simp [shown, isOpen]
  | .chain connective parts, position, h => by
    obtain ⟨hpos, hlen⟩ := length_shownOf holds connective parts position h.1 h.2
    simp only [shown, isOpen, Bool.or_eq_true, Bool.and_eq_true, beq_iff_eq, decide_eq_true_eq]
    exact ⟨hpos, hlen⟩

theorem length_shownOf (holds : Nat → Bool) (connective : Connective) :
    (parts : List Phrase) → (position : Nat) → parts ≠ [] → AllLinked parts →
      0 < (shownOf holds connective position parts).length ∧
        (1 < (shownOf holds connective position parts).length ↔
          (connective = .or ∧ 1 < parts.length) ∨ anyOpen parts = true)
  | [], _, hne, _ => absurd rfl hne
  | [part], position, _, h => by
    obtain ⟨hpos, hlen⟩ := length_shown holds part position h.1
    simp only [shownOf, Connective.link_nil, anyOpen]
    exact ⟨hpos, by simp [hlen]⟩
  | part :: next :: rest, position, _, h => by
    obtain ⟨hpos, hlen⟩ := length_shown holds part position h.1
    obtain ⟨hpos', hlen'⟩ := length_shownOf holds connective (next :: rest)
      (position + part.tests.length) (List.cons_ne_nil _ _) h.2
    rw [shownOf, anyOpen, Bool.or_eq_true]
    cases connective with
    | or =>
      rw [Connective.link, List.length_append]
      exact ⟨by omega, iff_of_true (by omega) (.inl ⟨rfl, by simp⟩)⟩
    | and =>
      have hmeet := length_meet hpos hpos'
      rw [Connective.link]
      refine ⟨by omega, ?_⟩
      simp only [reduceCtorEq, false_and, false_or] at hlen' ⊢
      rw [← hlen, ← hlen']
      omega
end

/-! ### Guarded phrases -/

theorem crosses_tail {connective : Connective} {part : Phrase} {rest : List Phrase}
    (h : crosses connective (part :: rest) = false) : crosses connective rest = false := by
  cases rest with
  | nil => simp [crosses]
  | cons next rest =>
    simp only [crosses, anyOpen, List.length_cons] at h ⊢
    simp at h ⊢
    intro hand _
    exact (h hand).2

/-- Where nothing crosses a connective, the text has the value of both sides. -/
theorem rowsHold_link_shown {connective : Connective} {part next : Phrase} {rest : List Phrase}
    (hlinked : AllLinked (part :: next :: rest)) (h : crosses connective (part :: next :: rest) = false)
    (f g : Nat → Bool) (m n : Nat) :
    rowsHold (connective.link (shown f m part) (shownOf g connective n (next :: rest))) =
      connective.op (rowsHold (shown f m part)) (rowsHold (shownOf g connective n (next :: rest))) := by
  refine Connective.rowsHold_link ?_
  cases connective with
  | or => exact .inl rfl
  | and =>
    obtain ⟨hpos, hlen⟩ := length_shown f part m hlinked.1
    obtain ⟨hpos', hlen'⟩ := length_shownOf g .and (next :: rest) n (List.cons_ne_nil _ _) hlinked.2
    have hclosed : part.isOpen = false ∧ anyOpen (next :: rest) = false := by
      rw [← Bool.or_eq_false_iff]
      simpa [crosses, anyOpen.eq_2] using h
    rw [hclosed.1] at hlen
    rw [hclosed.2] at hlen'
    simp only [reduceCtorEq, false_and, false_or, Bool.false_eq_true, iff_false] at hlen hlen'
    exact .inr ⟨by omega, by omega⟩

mutual
/-- The text of a guarded phrase has the value of its tree. -/
theorem shown_eq_value (holds : Nat → Bool) : (p : Phrase) → (position : Nat) → p.Linked →
    p.guarded = true → rowsHold (shown holds position p) = value holds position p
  | .test _ _ _, position, _, _ => rowsHold_single _
  | .parens inner, position, hlinked, h => by
    rw [shown, rowsHold_single, value, shown_eq_value holds inner position hlinked h]
  | .chain connective parts, position, hlinked, h => by
    rw [guarded, Bool.and_eq_true, Bool.not_eq_true'] at h
    exact shownOf_eq_value holds connective parts position hlinked.1 hlinked.2 h.2 h.1

theorem shownOf_eq_value (holds : Nat → Bool) (connective : Connective) :
    (parts : List Phrase) → (position : Nat) → parts ≠ [] → AllLinked parts → allGuarded parts = true →
      crosses connective parts = false →
      rowsHold (shownOf holds connective position parts) =
        connective.value (valuesOf holds position parts)
  | [], _, hne, _, _, _ => absurd rfl hne
  | [part], position, _, hlinked, h, _ => by
    rw [allGuarded, Bool.and_eq_true] at h
    rw [shownOf, shownOf, Connective.link_nil, shown_eq_value holds part position hlinked.1 h.1]
    exact (connective.op_neutral _).symm
  | part :: next :: rest, position, _, hlinked, h, hcross => by
    rw [allGuarded, Bool.and_eq_true] at h
    have hrest := shownOf_eq_value holds connective (next :: rest) (position + part.tests.length)
      (List.cons_ne_nil _ _) hlinked.2 h.2 (crosses_tail hcross)
    rw [shownOf, rowsHold_link_shown hlinked hcross, shown_eq_value holds part position hlinked.1 h.1,
      hrest]
    rfl
end

/-! ### Unguarded phrases -/

/-- The outcomes of `f` before a position, those of `g` from it on. -/
def splice (position : Nat) (f g : Nat → Bool) : Nat → Bool := fun n => if n < position then f n else g n

theorem agreeOn_splice_left (start count : Nat) (f g : Nat → Bool) :
    AgreeOn start count (splice (start + count) f g) f := fun _ _ h => if_pos h

theorem agreeOn_splice_right (position count : Nat) (f g : Nat → Bool) :
    AgreeOn position count (splice position f g) g := fun _ h _ => if_neg (Nat.not_lt.mpr h)

theorem valuesOf_splice (f g : Nat → Bool) (part : Phrase) (rest : List Phrase) (position : Nat) :
    valuesOf (splice (position + part.tests.length) f g) position (part :: rest) =
      value f position part :: valuesOf g (position + part.tests.length) rest := by
  rw [valuesOf, (value_shown_congr part position (agreeOn_splice_left _ _ f g)).1,
    (valuesOf_shownOf_congr .and rest _ (agreeOn_splice_right _ _ f g)).1]

theorem shownOf_splice (f g : Nat → Bool) (connective : Connective) (part : Phrase) (rest : List Phrase)
    (position : Nat) :
    shownOf (splice (position + part.tests.length) f g) connective position (part :: rest) =
      connective.link (shown f position part)
        (shownOf g connective (position + part.tests.length) rest) := by
  rw [shownOf, (value_shown_congr part position (agreeOn_splice_left _ _ f g)).2,
    (valuesOf_shownOf_congr connective rest _ (agreeOn_splice_right _ _ f g)).2]

/-- If an OR crosses an AND, then the text can hold where the tree does not. -/
theorem exists_shown_of_crosses {part next : Phrase} {rest : List Phrase} (position : Nat)
    (hlinked : AllLinked (part :: next :: rest)) (hopen : anyOpen (part :: next :: rest) = true) :
    ∃ holds, rowsHold (shownOf holds .and position (part :: next :: rest)) = true ∧
      Connective.value .and (valuesOf holds position (part :: next :: rest)) = false := by
  have hne : next :: rest ≠ [] := List.cons_ne_nil _ _
  have hpart (b : Bool) := value_shown_const b part position hlinked.1
  have hrest (b : Bool) := valuesOf_shownOf_const b .and (next :: rest) (position + part.tests.length)
    hne hlinked.2
  rw [anyOpen, Bool.or_eq_true] at hopen
  rcases hopen with hopen | hopen
  · -- the first row of `part` holds, and nothing after `part` does
    refine ⟨splice (position + part.tests.length) (fun _ => true) (fun _ => false), ?_, ?_⟩
    · have hlen := (length_shown (fun _ => true) part position hlinked.1).2.mpr hopen
      rw [shownOf_splice]
      exact rowsHold_meet_left (hpart true).2 hlen
    · rw [valuesOf_splice, Connective.value_cons, (hpart true).1, (hrest false).1]
      rfl
  · -- the last row after `part` holds, and nothing in `part` does
    refine ⟨splice (position + part.tests.length) (fun _ => false) (fun _ => true), ?_, ?_⟩
    · have hlen := (length_shownOf (fun _ => true) .and (next :: rest) (position + part.tests.length) hne
        hlinked.2).2.mpr (.inr hopen)
      rw [shownOf_splice]
      exact rowsHold_meet_right (hrest true).2 hlen
    · rw [valuesOf_splice, Connective.value_cons, (hpart false).1, (hrest true).1]
      rfl

mutual
/-- The text of an unguarded phrase differs from its tree for some outcomes. -/
theorem exists_shown_ne_value : (p : Phrase) → (position : Nat) → p.Linked → p.guarded = false →
    ∃ holds, rowsHold (shown holds position p) ≠ value holds position p
  | .test _ _ _, _, _, h => absurd h (by simp [guarded])
  | .parens inner, position, hlinked, h => by
    obtain ⟨holds, hne⟩ := exists_shown_ne_value inner position hlinked h
    refine ⟨holds, ?_⟩
    rwa [shown, rowsHold_single, value]
  | .chain connective parts, position, hlinked, h => by
    rw [guarded, Bool.and_eq_false_iff, Bool.not_eq_false'] at h
    cases hcross : crosses connective parts with
    | false =>
      exact exists_shownOf_ne_value connective parts position hlinked.2
        (h.resolve_left (by simp [hcross])) hcross
    | true =>
      simp only [crosses, Bool.and_eq_true, beq_iff_eq, decide_eq_true_eq] at hcross
      obtain ⟨⟨rfl, hlen⟩, hopen⟩ := hcross
      obtain ⟨part, next, rest, rfl⟩ := exists_cons_cons hlen
      obtain ⟨holds, hshown, hvalue⟩ := exists_shown_of_crosses position hlinked.2 hopen
      refine ⟨holds, ?_⟩
      rw [shown, value, hshown, hvalue]
      exact Bool.noConfusion

theorem exists_shownOf_ne_value (connective : Connective) :
    (parts : List Phrase) → (position : Nat) → AllLinked parts → allGuarded parts = false →
      crosses connective parts = false →
      ∃ holds, rowsHold (shownOf holds connective position parts) ≠
        connective.value (valuesOf holds position parts)
  | [], _, _, h, _ => absurd h (by simp [allGuarded])
  | [part], position, hlinked, h, _ => by
    rw [allGuarded, allGuarded, Bool.and_true] at h
    obtain ⟨holds, hne⟩ := exists_shown_ne_value part position hlinked.1 h
    refine ⟨holds, ?_⟩
    rw [shownOf, shownOf, Connective.link_nil, valuesOf, valuesOf, Connective.value_cons]
    rwa [Connective.value, List.foldr_nil, Connective.op_neutral]
  | part :: next :: rest, position, hlinked, h, hcross => by
    -- whichever side does not differ is made neutral
    have hpart := value_shown_const connective.neutral part position hlinked.1
    have hrest := valuesOf_shownOf_const connective.neutral connective (next :: rest)
      (position + part.tests.length) (List.cons_ne_nil _ _) hlinked.2
    rw [allGuarded, Bool.and_eq_false_iff] at h
    rcases h with h | h
    · obtain ⟨f, hne⟩ := exists_shown_ne_value part position hlinked.1 h
      refine ⟨splice (position + part.tests.length) f (fun _ => connective.neutral), ?_⟩
      rw [shownOf_splice, rowsHold_link_shown hlinked hcross, hrest.2.rowsHold, Connective.op_neutral,
        valuesOf_splice, Connective.value_cons, hrest.1, Connective.op_neutral]
      exact hne
    · obtain ⟨g, hne⟩ := exists_shownOf_ne_value connective (next :: rest)
        (position + part.tests.length) hlinked.2 h (crosses_tail hcross)
      refine ⟨splice (position + part.tests.length) (fun _ => connective.neutral) g, ?_⟩
      rw [shownOf_splice, rowsHold_link_shown hlinked hcross, hpart.2.rowsHold, Connective.neutral_op,
        valuesOf_splice, Connective.value_cons, hpart.1, Connective.neutral_op]
      exact hne
end

/-- **The text has the value of the tree for all outcomes exactly if the phrase is guarded.** -/
theorem forall_shown_eq_value_iff {p : Phrase} (hlinked : p.Linked) (position : Nat) :
    (∀ holds, rowsHold (shown holds position p) = value holds position p) ↔ p.guarded = true := by
  constructor
  · intro h
    cases hguarded : p.guarded with
    | true => rfl
    | false =>
      obtain ⟨holds, hne⟩ := exists_shown_ne_value p position hlinked hguarded
      exact absurd (h holds) hne
  · intro h holds
    exact shown_eq_value holds p position hlinked h

end Phrase

end SingleTable
