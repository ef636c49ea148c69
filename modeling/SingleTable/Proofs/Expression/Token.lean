import SingleTable.Condition.Operator

/-! Tokens of the expressions that the store reads.

A text falls into runs of characters that belong together: letters with letters,
signs with signs, every mark and every blank alone. A run is one token, a blank
none. `tokens_append` says that a blank or a mark between two texts keeps
their tokens apart, which is all that reading a rendered text needs. -/
namespace SingleTable.Grammar

/-! ### Characters -/

inductive Glyph where
  | blank
  | mark
  | sign
  | letter
deriving DecidableEq

def Glyph.of : Char → Glyph
  | ' ' | '\t' | '\n' | '\r' => .blank
  | '(' | ')' | ',' => .mark
  | '=' | '<' | '>' => .sign
  | _ => .letter

/-- Letters, digits and the underscore; beyond ASCII every character is taken
for a letter. -/
def isNameChar (c : Char) : Bool := c.isAlphanum || c == '_' || 127 < c.toNat

theorem letter_of_isNameChar {c : Char} (h : isNameChar c = true) : Glyph.of c = .letter := by
  unfold Glyph.of
  split <;> first | rfl | exact absurd h (by decide)

/-- A name that can stand after the sigil of a placeholder. -/
def IsName (name : String) : Prop := ∀ c ∈ name.toList, isNameChar c = true

instance (name : String) : Decidable (IsName name) :=
  decidable_of_iff (name.toList.all isNameChar = true) List.all_eq_true

theorem isName_append_toString {name : String} (h : IsName name) (n : Nat) : IsName (name ++ toString n) := by
  intro c hc
  rw [String.toList_append, List.mem_append] at hc
  rcases hc with hc | hc
  · exact h c hc
  · have hrepr : (toString n).toList = Nat.toDigits 10 n := Nat.toList_repr
    rw [hrepr] at hc
    have hdigit : c.isDigit = true := Nat.isDigit_of_mem_toDigits (by decide) (by decide) hc
    simp [isNameChar, Char.isAlphanum, hdigit]

/-! ### Runs -/

/-- Blanks and marks stand alone. -/
def separates (c : Char) : Bool := Glyph.of c = .blank || Glyph.of c = .mark

def joins (c d : Char) : Bool := Glyph.of c = Glyph.of d && !separates c

/-- The maximal runs of characters that belong together. -/
def runs : List Char → List (List Char)
  | [] => []
  | c :: rest =>
    match runs rest with
    | (d :: run) :: others => if joins c d then (c :: d :: run) :: others else [c] :: (d :: run) :: others
    | others => [c] :: others

theorem joins_eq_false {c d : Char} (h : separates c = true ∨ separates d = true) : joins c d = false := by
  by_cases hg : Glyph.of c = Glyph.of d
  · have hs : separates c = separates d := by simp only [separates, hg]
    have hc : separates c = true := h.elim id fun hd => by rw [hs, hd]
    simp [joins, hc]
  · simp [joins, hg]

theorem runs_cons_separator {s : Char} (hs : separates s = true) (b : List Char) :
    runs (s :: b) = [s] :: runs b := by
  rw [runs]
  split
  · next h => rw [joins_eq_false (.inl hs), h]; rfl
  · rfl

/-- **A separator keeps what is before it apart from what is after it.** -/
theorem runs_append {s : Char} (hs : separates s = true) (a b : List Char) :
    runs (a ++ s :: b) = runs a ++ [s] :: runs b := by
  induction a with
  | nil => exact runs_cons_separator hs b
  | cons c a ih =>
    rw [List.cons_append, runs, ih, runs]
    cases h : runs a with
    | nil => simp [joins_eq_false (.inr hs)]
    | cons run others =>
      cases run with
      | nil => rfl
      | cons d run =>
        show (if joins c d then _ else _) = (if joins c d then _ else _) ++ _
        split <;> rfl

/-- Letters make one run. -/
theorem runs_letters {run : List Char} (hne : run ≠ []) (h : ∀ c ∈ run, Glyph.of c = .letter) :
    runs run = [run] := by
  induction run with
  | nil => exact absurd rfl hne
  | cons c rest ih =>
    cases rest with
    | nil => rfl
    | cons d rest =>
      have hc := h c (List.mem_cons_self ..)
      have hd := h d (List.mem_cons_of_mem _ (List.mem_cons_self ..))
      rw [runs, ih (List.cons_ne_nil _ _) fun e he => h e (List.mem_cons_of_mem _ he)]
      simp [joins, separates, hc, hd]

/-! ### Tokens -/

inductive Token where
  | name (placeholder : String)
  | value (placeholder : String)
  | comparator (operator : Operator)
  | function (operator : Operator)
  | and
  | or
  | not
  | between
  | opening
  | closing
  | comma
  | unknown (run : List Char)
deriving DecidableEq

namespace Token

def ofMark : Char → Token
  | '(' => .opening
  | ')' => .closing
  | ',' => .comma
  | c => .unknown [c]

def ofSigns (run : List Char) : Token :=
  match String.ofList run with
  | "=" => .comparator .eq
  | "<>" => .comparator .ne
  | "<" => .comparator .lt
  | "<=" => .comparator .lte
  | ">" => .comparator .gt
  | ">=" => .comparator .gte
  | _ => .unknown run

/-- Keywords are read in any case, the names of functions as they are. -/
def ofWord (run : List Char) : Token :=
  match String.ofList (run.map Char.toLower) with
  | "and" => .and
  | "or" => .or
  | "not" => .not
  | "between" => .between
  | _ =>
    match String.ofList run with
    | "begins_with" => .function .beginsWith
    | "contains" => .function .contains
    | "attribute_exists" => .function .exists
    | "attribute_not_exists" => .function .notExists
    | _ => .unknown run

def ofLetters : List Char → Token
  | '#' :: rest => if rest.all isNameChar then .name (String.ofList ('#' :: rest)) else .unknown ('#' :: rest)
  | ':' :: rest => if rest.all isNameChar then .value (String.ofList (':' :: rest)) else .unknown (':' :: rest)
  | run => ofWord run

/-- The token of a run; a blank is none. -/
def ofRun? : List Char → Option Token
  | [] => none
  | c :: rest =>
    match Glyph.of c with
    | .blank => none
    | .mark => some (ofMark c)
    | .sign => some (ofSigns (c :: rest))
    | .letter => some (ofLetters (c :: rest))

end Token

def tokens (text : List Char) : List Token := (runs text).filterMap Token.ofRun?

theorem tokens_nil : tokens [] = [] := rfl

theorem tokens_append {s : Char} (hs : separates s = true) (a b : List Char) :
    tokens (a ++ s :: b) = tokens a ++ (Token.ofRun? [s]).toList ++ tokens b := by
  rw [tokens, runs_append hs, List.filterMap_append, List.filterMap_cons]
  cases Token.ofRun? [s] <;> simp [tokens]

/-- A blank is no token. -/
theorem tokens_append_blank (a b : List Char) : tokens (a ++ ' ' :: b) = tokens a ++ tokens b := by
  rw [tokens_append (by decide)]
  simp [Token.ofRun?, Glyph.of]

/-- A word between blanks is read by itself. -/
theorem tokens_append_word (a word b : List Char) :
    tokens (a ++ ' ' :: (word ++ ' ' :: b)) = tokens a ++ (tokens word ++ tokens b) := by
  rw [tokens_append_blank, tokens_append_blank]

theorem tokens_append_comma (a b : List Char) :
    tokens (a ++ ',' :: b) = tokens a ++ .comma :: tokens b := by
  rw [tokens_append (by decide)]
  simp [Token.ofRun?, Glyph.of, Token.ofMark]

theorem tokens_append_opening (a b : List Char) :
    tokens (a ++ '(' :: b) = tokens a ++ .opening :: tokens b := by
  rw [tokens_append (by decide)]
  simp [Token.ofRun?, Glyph.of, Token.ofMark]

theorem tokens_append_closing (a : List Char) : tokens (a ++ [')']) = tokens a ++ [.closing] := by
  rw [tokens_append (by decide)]
  simp [Token.ofRun?, Glyph.of, Token.ofMark, tokens_nil]

/-- A text in parentheses. -/
theorem tokens_parens (a : List Char) : tokens ('(' :: (a ++ [')'])) = .opening :: (tokens a ++ [.closing]) := by
  rw [← List.nil_append ('(' :: _), tokens_append_opening, tokens_append_closing, tokens_nil, List.nil_append]

/-! ### Placeholders -/

theorem runs_placeholder {sigil : Char} {identifier : String} (hs : Glyph.of sigil = .letter)
    (h : IsName identifier) : runs (sigil :: identifier.toList) = [sigil :: identifier.toList] := by
  refine runs_letters (List.cons_ne_nil _ _) fun c hc => ?_
  rcases List.mem_cons.mp hc with rfl | hc
  · exact hs
  · exact letter_of_isNameChar (h c hc)

theorem tokens_name {identifier : String} (h : IsName identifier) :
    tokens ('#' :: identifier.toList) = [.name ("#" ++ identifier)] := by
  have hall : identifier.toList.all isNameChar = true := List.all_eq_true.mpr h
  have htext : String.ofList ('#' :: identifier.toList) = "#" ++ identifier := by
    rw [← String.toList_inj]
    simp
  have hglyph : Glyph.of '#' = .letter := rfl
  rw [tokens, runs_placeholder rfl h]
  simp only [List.filterMap_cons, Token.ofRun?, hglyph, Token.ofLetters, hall, if_true, htext,
    List.filterMap_nil]

theorem tokens_value {identifier : String} (h : IsName identifier) :
    tokens (':' :: identifier.toList) = [.value (":" ++ identifier)] := by
  have hall : identifier.toList.all isNameChar = true := List.all_eq_true.mpr h
  have htext : String.ofList (':' :: identifier.toList) = ":" ++ identifier := by
    rw [← String.toList_inj]
    simp
  have hglyph : Glyph.of ':' = .letter := rfl
  rw [tokens, runs_placeholder rfl h]
  simp only [List.filterMap_cons, Token.ofRun?, hglyph, Token.ofLetters, hall, if_true, htext,
    List.filterMap_nil]

end SingleTable.Grammar
