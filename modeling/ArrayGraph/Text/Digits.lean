/-!
# Decimal digits

Instance names write their numbers in decimal, and so do both notations of documents. What
`digits` writes, `ofDigits` reads.
-/

namespace ArrayGraph

/-- A number in decimal. -/
def digits (n : Nat) : List Char := Nat.toDigits 10 n

/-- The number that a run of decimal digits stands for. -/
def ofDigits (cs : List Char) : Nat := Nat.ofDigitChars 10 cs 0

variable {c : Char} {m n : Nat}

@[simp] theorem ofDigits_digits (n : Nat) : ofDigits (digits n) = n :=
  Nat.ofDigitChars_ten_toDigits

theorem digits_inj (h : digits m = digits n) : m = n := by
  rw [← ofDigits_digits m, h, ofDigits_digits]

theorem digits_ne_nil (n : Nat) : digits n ≠ [] := Nat.toDigits_ne_nil

theorem isDigit_of_mem_digits (h : c ∈ digits n) : c.isDigit = true :=
  Nat.isDigit_of_mem_toDigits (by decide) (by decide) h

theorem not_mem_digits (h : c.isDigit = false) (n : Nat) : c ∉ digits n := by
  intro hm
  rw [isDigit_of_mem_digits hm] at h
  cases h

end ArrayGraph
