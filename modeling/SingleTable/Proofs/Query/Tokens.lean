import SingleTable.Proofs.Expression.Candidate
import SingleTable.Proofs.Expression.Inventory
import SingleTable.Proofs.Query.Params

/-! Key conditions as tokens.

Each placeholder of a key condition is one token in its text, and no other
placeholder stands in it. -/
namespace SingleTable

open Grammar
open Placeholder (bindName bindValue candidate ofName ofValue)

/-! ### Sort phrases -/

/-- The operator of a condition that compares as keys are compared. -/
def Comparison.operator : Comparison → Operator
  | .gt => .gt
  | .gte => .gte
  | .lt => .lt
  | .lte => .lte

namespace SortPhrase

def name : SortPhrase → String
  | .beginsWith name _ | .between name _ _ | .compare name _ _ => name

def isBetween : SortPhrase → Bool
  | .between _ _ _ => true
  | .beginsWith _ _ | .compare _ _ _ => false

def tokens : SortPhrase → List Grammar.Token
  | .beginsWith name start => [.function .beginsWith, .opening, .name name, .comma, .value start, .closing]
  | .between name low high => [.name name, .between, .value low, .and, .value high]
  | .compare name comparison bound => [.name name, .comparator comparison.operator, .value bound]

theorem tokens_text {phrase : SortPhrase} (hname : Grammar.tokens phrase.name.toList = [.name phrase.name])
    (hvalues : ∀ value ∈ phrase.placeholders, Grammar.tokens value.toList = [.value value]) :
    Grammar.tokens phrase.text.toList = phrase.tokens := by
  cases phrase with
  | beginsWith name start =>
    simp only [SortPhrase.name] at hname
    have hstart := hvalues start (List.mem_singleton_self _)
    have htext : (text (.beginsWith name start)).toList =
        "begins_with".toList ++ '(' :: (name.toList ++ ',' :: ([] ++ ' ' :: (start.toList ++ [')']))) := by
      simp [text]
    have hword : Grammar.tokens "begins_with".toList = [.function .beginsWith] := by decide
    rw [htext, tokens_append_opening, tokens_append_comma, tokens_append_blank, tokens_append_closing, hword, hname,
      hstart, tokens_nil]
    rfl
  | between name low high =>
    simp only [SortPhrase.name] at hname
    have hlow := hvalues low (List.mem_cons_self ..)
    have hhigh := hvalues high (List.mem_cons_of_mem _ (List.mem_cons_self ..))
    have htext : (text (.between name low high)).toList =
        name.toList ++ ' ' :: ("BETWEEN".toList ++ ' ' :: (low.toList ++ ' ' :: ("AND".toList ++ ' ' :: high.toList))) := by
      simp [text]
    have hbetween : Grammar.tokens "BETWEEN".toList = [.between] := by decide
    have hand : Grammar.tokens "AND".toList = [.and] := by decide
    rw [htext, tokens_append_word, tokens_append_word, hname, hbetween, hlow, hand, hhigh]
    rfl
  | compare name comparison bound =>
    simp only [SortPhrase.name] at hname
    have hbound := hvalues bound (List.mem_singleton_self _)
    have htext : (text (.compare name comparison bound)).toList =
        name.toList ++ ' ' :: (comparison.symbol.toList ++ ' ' :: bound.toList) := by
      simp [text]
    have hsymbol : Grammar.tokens comparison.symbol.toList = [.comparator comparison.operator] := by
      cases comparison <;> decide
    rw [htext, tokens_append_word, hname, hsymbol, hbound]
    rfl

end SortPhrase

/-! ### Key conditions -/

namespace KeyPhrase

/-- The name placeholders of a key condition. -/
def names (k : KeyPhrase) : List String := k.name :: k.sort.toList.map SortPhrase.name

def isBetween (k : KeyPhrase) : Bool := k.sort.any SortPhrase.isBetween

def tokens (k : KeyPhrase) : List Grammar.Token :=
  [.name k.name, .comparator .eq, .value k.value] ++ k.sort.toList.flatMap fun phrase => .and :: phrase.tokens

/-- Every placeholder of a key condition is one token. -/
structure Spelled (k : KeyPhrase) : Prop where
  names : ∀ name ∈ k.names, Grammar.tokens name.toList = [.name name]
  values : ∀ value ∈ k.placeholders, Grammar.tokens value.toList = [.value value]

/-- **The text of a key condition has its tokens.** -/
theorem tokens_text {k : KeyPhrase} (h : k.Spelled) : Grammar.tokens k.text.toList = k.tokens := by
  obtain ⟨name, value, sort⟩ := k
  have hname := h.names name (List.mem_cons_self ..)
  have hvalue := h.values value (List.mem_cons_self ..)
  have hequals : Grammar.tokens "=".toList = [.comparator .eq] := by decide
  cases sort with
  | none =>
    have htext : (text ⟨name, value, none⟩).toList = name.toList ++ ' ' :: ("=".toList ++ ' ' :: value.toList) := by
      simp [text]
    rw [htext, tokens_append_word, hname, hequals, hvalue]
    rfl
  | some phrase =>
    have hphrase : Grammar.tokens phrase.text.toList = phrase.tokens := by
      refine SortPhrase.tokens_text (h.names _ (List.mem_cons_of_mem _ (List.mem_singleton_self _))) fun v hv => ?_
      refine h.values v (List.mem_cons_of_mem _ ?_)
      rwa [Option.toList_some, List.flatMap_singleton]
    have htext : (text ⟨name, value, some phrase⟩).toList =
        name.toList ++ ' ' :: ("=".toList ++ ' ' ::
          (value.toList ++ ' ' :: ("and".toList ++ ' ' :: phrase.text.toList))) := by
      simp [text]
    have hand : Grammar.tokens "and".toList = [.and] := by decide
    rw [htext, tokens_append_word, tokens_append_word, hname, hequals, hvalue, hand, hphrase, tokens,
      Option.toList_some, List.flatMap_singleton]
    rfl

/-- The placeholders in a key condition are its own. -/
theorem filterMap_tokens (k : KeyPhrase) :
    k.tokens.filterMap Grammar.Token.name? = k.names ∧ k.tokens.filterMap Grammar.Token.value? = k.placeholders := by
  obtain ⟨name, value, _ | phrase⟩ := k
  · exact ⟨rfl, rfl⟩
  · cases phrase <;> exact ⟨rfl, rfl⟩

end KeyPhrase

end SingleTable
