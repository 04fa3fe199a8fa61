/-!
Blank characters: the code points of the Unicode property White_Space.
-/

namespace WorkPlan.Text

/-- The ranges of code points with the property White_Space, both ends included. -/
def blankRanges : List (Nat × Nat) :=
  [(0x09, 0x0d), (0x20, 0x20), (0x85, 0x85), (0xa0, 0xa0), (0x1680, 0x1680), (0x2000, 0x200a),
    (0x2028, 0x2029), (0x202f, 0x202f), (0x205f, 0x205f), (0x3000, 0x3000)]

def isBlank (c : Char) : Bool :=
  blankRanges.any fun range => range.1 ≤ c.toNat && c.toNat ≤ range.2

/-- The property has 25 code points. -/
example : (blankRanges.map fun range => range.2 + 1 - range.1).sum = 25 := by decide

theorem isBlank_of_isWhitespace {c : Char} (h : c.isWhitespace = true) : isBlank c = true := by
  simp only [Char.isWhitespace, Bool.or_eq_true, decide_eq_true_eq] at h
  rcases h with ((rfl | rfl) | rfl) | rfl <;> decide

theorem isBlank_eq_false_of_isDigit {c : Char} (h : c.isDigit = true) : isBlank c = false := by
  obtain ⟨h₁, h₂⟩ := Char.isDigit_iff_toNat.mp h
  have h₃ : 48 ≤ c.toNat := h₁
  have h₄ : c.toNat ≤ 57 := h₂
  simp only [isBlank, blankRanges, List.any_cons, List.any_nil, Bool.or_false, Bool.or_eq_false_iff,
    Bool.and_eq_false_iff, decide_eq_false_iff_not]
  omega

/-- The characters that follow the leading blanks. -/
def skipBlanks (cs : List Char) : List Char := cs.dropWhile isBlank

theorem skipBlanks_cons_of_not {c : Char} (h : isBlank c = false) (cs : List Char) :
    skipBlanks (c :: cs) = c :: cs := by
  simp [skipBlanks, h]

end WorkPlan.Text
