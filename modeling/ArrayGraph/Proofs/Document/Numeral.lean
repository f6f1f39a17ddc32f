import ArrayGraph.Document.JsonText
/-!
# Numerals

Both notations write counts in decimal digits, and control characters as four hexadecimal
digits after a backslash. A reader takes digits as long as there are any, so what follows a
numeral must not go on with one (`Stops`).
-/

namespace ArrayGraph

variable {p : Char → Bool} {cs rest : List Char}

/-- The text does not begin with a character that passes. -/
def Stops (p : Char → Bool) : List Char → Prop
  | [] => True
  | c :: _ => p c = false

theorem takeWhile_of_stops (hcs : ∀ c ∈ cs, p c = true) (h : Stops p rest) :
    (cs ++ rest).takeWhile p = cs := by
  rw [List.takeWhile_append_of_pos hcs]
  cases rest with
  | nil => exact List.append_nil cs
  | cons c rest => rw [List.takeWhile_cons_of_neg (Bool.not_eq_true _ ▸ h), List.append_nil]

theorem dropWhile_of_stops (hcs : ∀ c ∈ cs, p c = true) (h : Stops p rest) :
    (cs ++ rest).dropWhile p = rest := by
  rw [List.dropWhile_append_of_pos hcs]
  cases rest with
  | nil => rfl
  | cons c rest => rw [List.dropWhile_cons_of_neg (Bool.not_eq_true _ ▸ h)]

theorem Stops.imp {q : Char → Bool} (h : Stops p rest) (hq : ∀ c, q c = true → p c = true) :
    Stops q rest := by
  cases rest with
  | nil => trivial
  | cons c rest =>
    refine Bool.eq_false_iff.2 fun hc => ?_
    rw [Stops, hq c hc] at h
    cases h

/-- A text of characters that pass begins with no character that does not. -/
theorem append_ne_cons (hne : cs ≠ []) (hcs : ∀ c ∈ cs, p c = true) (rest : List Char) {c : Char}
    (hc : p c = false) (cs' : List Char) : cs ++ rest ≠ c :: cs' := by
  intro he
  cases cs with
  | nil => exact hne rfl
  | cons d cs =>
    cases he
    rw [hcs _ List.mem_cons_self] at hc
    cases hc

/-! ## Decimal digits -/

/-- The first digit, and those after it. Only zero begins with a zero, and has no other digit. -/
theorem numeral_cases (n : Nat) : ∃ d ds, digits n = d :: ds ∧ d.isDigit = true ∧
    (d = '0' → ds = []) := by
  induction n using Nat.strongRecOn with
  | _ n ih =>
    by_cases h : n < 10
    · have hone : digits n = [n.digitChar] := Nat.toDigits_of_lt_base h
      refine ⟨n.digitChar, [], hone, ?_, fun _ => rfl⟩
      exact isDigit_of_mem_digits (hone ▸ List.mem_singleton_self _)
    · have hsplit : digits n = digits (n / 10) ++ [(n % 10).digitChar] :=
        Nat.toDigits_of_base_le (by decide) (Nat.le_of_not_lt h)
      obtain ⟨d, ds, hd, hdigit, hzero⟩ := ih (n / 10) (by omega)
      rw [hd] at hsplit
      refine ⟨d, ds ++ [(n % 10).digitChar], hsplit, hdigit, ?_⟩
      rintro rfl
      -- the digits in front are those of a number that is not zero
      have hten := ofDigits_digits (n / 10)
      rw [hd, hzero rfl] at hten
      have : n / 10 = 0 := hten.symm
      omega

/-- A numeral begins with nothing but a digit. -/
theorem numeral_append_ne (n : Nat) (rest : List Char) {c : Char} (hc : c.isDigit = false)
    (cs : List Char) : digits n ++ rest ≠ c :: cs :=
  append_ne_cons (digits_ne_nil n) (fun _ => isDigit_of_mem_digits) rest hc cs

theorem numeral_ne (n : Nat) {c : Char} (hc : c.isDigit = false) (cs : List Char) :
    digits n ≠ c :: cs :=
  fun he => numeral_append_ne n [] hc cs ((List.append_nil _).trans he)

namespace JsonText

/-! ## Hexadecimal digits -/

theorem hexValue?_digitChar : ∀ n < 16, hexValue? (Nat.digitChar n) = some n := by decide

/-- The escape of a control character. -/
theorem hexNumber?_pair {n : Nat} {c d : Char} (hc : hexValue? c = some (n / 16))
    (hd : hexValue? d = some (n % 16)) : hexNumber? ['0', '0', c, d] = some n := by
  have hzero : hexValue? '0' = some 0 := by decide
  simp only [hexNumber?, List.foldlM_cons, List.foldlM_nil, hzero, hc, hd, Option.map_some,
    Option.bind_eq_bind, Option.bind_some]
  refine congrArg some ?_
  omega

end JsonText

end ArrayGraph
