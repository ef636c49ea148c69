/-! White space, and texts of nothing else.

White space is the Unicode property of that name, 25 characters that have not
changed since version 6.3. It adds to the white space of ASCII the next-line
character, the spaces of fixed width and the separators of lines and paragraphs. -/
namespace SingleTable.Text

/-- Closed ranges of code points, ascending and apart. -/
def whiteSpace : List (Nat × Nat) :=
  [(0x09, 0x0D), (0x20, 0x20), (0x85, 0x85), (0xA0, 0xA0), (0x1680, 0x1680), (0x2000, 0x200A),
    (0x2028, 0x2029), (0x202F, 0x202F), (0x205F, 0x205F), (0x3000, 0x3000)]

def isWhiteSpace (c : Char) : Bool := whiteSpace.any fun range => range.1 ≤ c.toNat && c.toNat ≤ range.2

theorem isWhiteSpace_of_isWhitespace {c : Char} (h : c.isWhitespace = true) :
    isWhiteSpace c = true := by
  simp only [Char.isWhitespace, Bool.or_eq_true, decide_eq_true_eq] at h
  rcases h with ((rfl | rfl) | rfl) | rfl <;> decide

/-- Whether a text has no other characters than white space, or none at all. -/
def isBlank (text : String) : Bool := text.toList.all isWhiteSpace

end SingleTable.Text
