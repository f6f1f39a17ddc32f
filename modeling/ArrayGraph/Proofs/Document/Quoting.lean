import ArrayGraph.Document.Toml.Quoting
import ArrayGraph.Document.Toml.Writer
import ArrayGraph.Proofs.Document.Numeral
/-!
# Quoted texts read back

A text is quoted in one of four ways, and each is read back to the text (`string?_printText`).
Between double quotes every character is escaped that may not stand there, so there both ways
hold any text. Between single quotes nothing is escaped, and what the text has none of comes
from the choice of the way.
-/

namespace ArrayGraph

namespace Toml

variable {cs rest : List Char} {fuel : Nat}

/-! ## Escapes -/

theorem hexValue?_hexDigitUpper :
    ∀ n < 16, JsonText.hexValue? (hexDigitUpper n) = some n := by decide

theorem character?_toNat (c : Char) : character? c.toNat = some c := by
  have hvalid : c.toNat.isValidChar := c.valid
  rw [character?, if_pos hvalid, Char.ofNat_toNat]

/-- A character is escaped by a letter of its own or by number, or it may stand for itself. -/
theorem escape_cases (c : Char) :
    (∃ l, l ≠ 'u' ∧ l ≠ 'U' ∧ l ≠ '\n' ∧ l ≠ '\r' ∧ isBlank l = false ∧ escaped? l = some c ∧
      escape c = ['\\', l]) ∨
    (c.toNat < 0x80 ∧ escape c =
      ['\\', 'u', '0', '0', hexDigitUpper (c.toNat / 16), hexDigitUpper (c.toNat % 16)]) ∨
    (c ≠ '"' ∧ c ≠ '\\' ∧ c ≠ '\n' ∧ c ≠ '\r' ∧ isAllowed c = true ∧ escape c = [c]) := by
  unfold escape
  split
  case h_8 _ _ hnewline _ hreturn hquote hslash =>
    split
    · next h =>
      refine .inr (.inl ⟨?_, rfl⟩)
      simp only [Bool.or_eq_true, decide_eq_true_eq, beq_iff_eq] at h
      omega
    · next h =>
      refine .inr (.inr ⟨hquote, hslash, hnewline, hreturn, ?_, rfl⟩)
      simp only [Bool.or_eq_true, decide_eq_true_eq, beq_iff_eq, not_or] at h
      simp only [isAllowed, Bool.or_eq_true, Bool.and_eq_true, decide_eq_true_eq, bne_iff_ne]
      omega
  all_goals
    refine .inl ⟨_, ?_, ?_, ?_, ?_, ?_, rfl, rfl⟩
    all_goals decide

theorem pastBreak?_of_head {c : Char} (hnewline : c ≠ '\n') (hreturn : c ≠ '\r')
    (rest : List Char) : pastBreak? (c :: rest) = none :=
  pastBreak?.eq_3 _ (fun _ he => hnewline (List.cons.inj he).1)
    fun _ he => hreturn (List.cons.inj he).1

theorem escape?_letter {l c : Char} (hu : l ≠ 'u') (hU : l ≠ 'U') (he : escaped? l = some c)
    (rest : List Char) : escape? (l :: rest) = some (c, rest) := by
  rw [escape?.eq_3 _ _ (fun _ _ _ _ _ h _ => hu h) fun _ _ _ _ _ _ _ _ _ h _ => hU h, he]
  rfl

theorem escape?_number {c : Char} (h : c.toNat < 0x80) (rest : List Char) :
    escape? ('u' :: '0' :: '0' :: hexDigitUpper (c.toNat / 16) :: hexDigitUpper (c.toNat % 16) ::
      rest) = some (c, rest) := by
  have hhex : JsonText.hexNumber? ['0', '0', hexDigitUpper (c.toNat / 16),
      hexDigitUpper (c.toNat % 16)] = some c.toNat :=
    JsonText.hexNumber?_pair (hexValue?_hexDigitUpper _ (by omega))
      (hexValue?_hexDigitUpper _ (by omega))
  rw [escape?.eq_1, hhex, Option.bind_some, character?_toNat]
  rfl

/-- What follows the backslash of an escape is read to the character, and breaks no line. -/
theorem escape?_tail {c : Char} {more : List Char} (h : escape c = '\\' :: more)
    (rest : List Char) : escape? (more ++ rest) = some (c, rest) ∧
      pastBreak? ((more ++ rest).dropWhile isBlank) = none := by
  rcases escape_cases c with ⟨l, hu, hU, hn, hr, hblank, he, hc⟩ | ⟨hlt, hc⟩ | ⟨-, hslash, -, -, -, hc⟩
  · rw [hc] at h
    cases h
    refine ⟨escape?_letter hu hU he rest, ?_⟩
    have hdrop : ([l] ++ rest).dropWhile isBlank = l :: rest :=
      List.dropWhile_cons_of_neg (Bool.not_eq_true _ ▸ hblank)
    rw [hdrop, pastBreak?_of_head hn hr]
  · rw [hc] at h
    cases h
    exact ⟨escape?_number hlt rest, rfl⟩
  · rw [hc] at h
    cases h
    exact absurd rfl hslash

/-- An escaped character begins with a backslash, or is the character itself. -/
theorem escape_head (c : Char) : (∃ more, escape c = '\\' :: more) ∨
    (c ≠ '"' ∧ c ≠ '\\' ∧ c ≠ '\n' ∧ c ≠ '\r' ∧ isAllowed c = true ∧ escape c = [c]) := by
  rcases escape_cases c with ⟨l, -, -, -, -, -, -, hc⟩ | ⟨-, hc⟩ | h
  · exact .inl ⟨_, hc⟩
  · exact .inl ⟨_, hc⟩
  · exact .inr h

theorem length_escape_pos (c : Char) : 0 < (escape c).length := by
  rcases escape_head c with ⟨more, hc⟩ | ⟨-, -, -, -, -, hc⟩ <;> simp [hc]

theorem length_le_flatMap_escape (cs : List Char) : cs.length ≤ (cs.flatMap escape).length := by
  induction cs with
  | nil => exact Nat.le_refl _
  | cons c cs ih =>
    have hpos := length_escape_pos c
    rw [List.flatMap_cons, List.length_append, List.length_cons]
    omega

/-! ## One line with escapes -/

theorem basic?_escape (c : Char) (rest : List Char) : basic? (fuel + 1) (escape c ++ rest) =
    (basic? fuel rest).map fun (s, rest) => (c :: s, rest) := by
  rcases escape_head c with ⟨more, hc⟩ | ⟨hquote, hslash, -, -, hallowed, hc⟩
  · rw [hc, List.cons_append, basic?.eq_3, (escape?_tail hc rest).1]
  · simp only [hc, List.cons_append, List.nil_append]
    rw [basic?, if_pos hallowed]
    · exact hquote
    · exact hslash

theorem basic?_escaped (h : cs.length < fuel) :
    basic? fuel (cs.flatMap escape ++ '"' :: rest) = some (cs, rest) := by
  induction cs generalizing fuel with
  | nil =>
    obtain ⟨fuel, rfl⟩ : ∃ k, fuel = k + 1 := ⟨fuel - 1, by omega⟩
    rfl
  | cons c cs ih =>
    rw [List.length_cons] at h
    obtain ⟨fuel, rfl⟩ : ∃ k, fuel = k + 1 := ⟨fuel - 1, by omega⟩
    rw [List.flatMap_cons, List.append_assoc, basic?_escape, ih (by omega)]
    rfl

/-! ## Several lines with escapes -/

/-- The quotes that close a text on several lines, and what follows them. -/
def closing (q : Char) (rest : List Char) : List Char := q :: q :: q :: rest

/-- A character that begins no closing quotes and is no part of a line break. -/
theorem multilineBasic?_plain {c : Char}
    (hquotes : ∀ more, c = '"' → rest = '"' :: '"' :: more → False) (hslash : c ≠ '\\')
    (hnewline : c ≠ '\n') (hreturn : c ≠ '\r') (hallowed : isAllowed c = true) :
    multilineBasic? (fuel + 1) (c :: rest) =
      (multilineBasic? fuel rest).map fun (s, rest) => (c :: s, rest) := by
  have hbreak := pastBreak?_of_head hnewline hreturn rest
  rw [multilineBasic?.eq_6 _ _ _ (fun _ => hquotes _) (fun _ => hquotes _) (fun _ => hquotes _)
    hslash, hbreak]
  exact if_pos hallowed

theorem multilineBasic?_backslash {c : Char} {more : List Char} (hc : escape c = '\\' :: more)
    (rest : List Char) : multilineBasic? (fuel + 1) ('\\' :: (more ++ rest)) =
      (multilineBasic? fuel rest).map fun (s, rest) => (c :: s, rest) := by
  obtain ⟨hescape, hbreak⟩ := escape?_tail hc rest
  rw [multilineBasic?.eq_5, hbreak, hescape]

theorem multilineBasic?_escape {c : Char} (hquote : c ≠ '"') (hnewline : c ≠ '\n')
    (rest : List Char) : multilineBasic? (fuel + 1) (escape c ++ rest) =
      (multilineBasic? fuel rest).map fun (s, rest) => (c :: s, rest) := by
  rcases escape_head c with ⟨more, hc⟩ | ⟨-, hslash, -, hreturn, hallowed, hc⟩
  · rw [hc]
    exact multilineBasic?_backslash hc rest
  · rw [hc]
    exact multilineBasic?_plain (fun _ he => absurd he hquote) hslash hnewline hreturn hallowed

theorem length_le_escapeLines (run : Nat) (cs : List Char) :
    cs.length ≤ (escapeLines run cs).length := by
  induction run, cs using escapeLines.induct with
  | case1 run => exact Nat.le_refl _
  | case2 cs ih =>
    have hthird : escapeLines 2 ('"' :: cs) = '\\' :: '"' :: escapeLines 0 cs := rfl
    simp only [hthird, List.length_cons]
    omega
  | case3 run cs hne ih =>
    rw [escapeLines, if_neg hne, List.length_cons, List.length_cons]
    omega
  | case4 run cs ih =>
    rw [escapeLines, List.length_cons, List.length_cons]
    omega
  | case5 run c cs hquote hnewline ih =>
    have hpos := length_escape_pos c
    rw [escapeLines.eq_4 _ _ _ hquote hnewline, List.length_append, List.length_cons]
    omega

/-- A quote in front closes the text, or is one of at most two of the text. -/
theorem escapeLines_quote {run : Nat} {more : List Char}
    (h : escapeLines run cs ++ rest = '"' :: more) :
    cs = [] ∨ ∃ cs', cs = '"' :: cs' ∧ run ≠ 2 ∧ escapeLines (run + 1) cs' ++ rest = more := by
  induction run, cs using escapeLines.induct with
  | case1 run => exact .inl rfl
  | case2 cs => cases h
  | case3 run cs hne =>
    rw [escapeLines, if_neg hne] at h
    cases h
    exact .inr ⟨cs, rfl, hne, rfl⟩
  | case4 run cs => cases h
  | case5 run c cs hquote hnewline =>
    rw [escapeLines.eq_4 _ _ _ hquote hnewline] at h
    rcases escape_head c with ⟨more, hc⟩ | ⟨-, -, -, -, -, hc⟩
    · rw [hc] at h
      cases h
    · rw [hc] at h
      cases h
      exact absurd rfl hquote

theorem multilineBasic?_escapeLines {run : Nat} (hrun : run ≤ 2) (h : cs.length < fuel)
    (hrest : Stops (· == '"') rest) :
    multilineBasic? fuel (escapeLines run cs ++ closing '"' rest) = some (cs, rest) := by
  have hstop : ∀ more, rest = '"' :: more → False := by
    rintro _ rfl
    cases hrest
  induction run, cs using escapeLines.induct generalizing fuel with
  | case1 run =>
    obtain ⟨fuel, rfl⟩ : ∃ k, fuel = k + 1 := ⟨fuel - 1, by omega⟩
    exact multilineBasic?.eq_4 _ _ (fun _ => hstop _) hstop
  | case2 cs ih =>
    rw [List.length_cons] at h
    obtain ⟨fuel, rfl⟩ : ∃ k, fuel = k + 1 := ⟨fuel - 1, by omega⟩
    have hthird : escapeLines 2 ('"' :: cs) = '\\' :: ['"'] ++ escapeLines 0 cs := rfl
    have hc : escape '"' = '\\' :: ['"'] := rfl
    rw [hthird, List.append_assoc, List.cons_append, multilineBasic?_backslash hc,
      ih (by omega) (by omega)]
    rfl
  | case3 run cs hne ih =>
    rw [List.length_cons] at h
    obtain ⟨fuel, rfl⟩ : ∃ k, fuel = k + 1 := ⟨fuel - 1, by omega⟩
    rw [escapeLines, if_neg hne, List.cons_append]
    by_cases htwo : ∃ more, escapeLines (run + 1) cs ++ closing '"' rest = '"' :: '"' :: more
    · -- the text ends here, or with one more quote
      obtain ⟨more, htwo⟩ := htwo
      rcases escapeLines_quote htwo with rfl | ⟨cs', rfl, hrun', hthird⟩
      · exact multilineBasic?.eq_3 _ _ hstop
      · rcases escapeLines_quote hthird with rfl | ⟨_, _, hrun'', _⟩
        · obtain rfl : run = 0 := by omega
          exact multilineBasic?.eq_2 _ _
        · omega
    · rw [multilineBasic?_plain (fun more _ he => htwo ⟨more, he⟩) (by decide) (by decide)
        (by decide) (by decide), ih (by omega) (by omega)]
      rfl
  | case4 run cs ih =>
    rw [List.length_cons] at h
    obtain ⟨fuel, rfl⟩ : ∃ k, fuel = k + 1 := ⟨fuel - 1, by omega⟩
    have hbreak : ∀ more, multilineBasic? (fuel + 1) ('\n' :: more) =
        (multilineBasic? fuel more).map fun (s, rest) => ('\n' :: s, rest) := fun _ => rfl
    rw [escapeLines, List.cons_append, hbreak, ih (by omega) (by omega)]
    rfl
  | case5 run c cs hquote hnewline ih =>
    rw [List.length_cons] at h
    obtain ⟨fuel, rfl⟩ : ∃ k, fuel = k + 1 := ⟨fuel - 1, by omega⟩
    rw [escapeLines.eq_4 _ _ _ hquote hnewline, List.append_assoc,
      multilineBasic?_escape hquote hnewline, ih (Nat.zero_le 2) (by omega)]
    rfl

/-! ## Without escapes -/

theorem literal?_quoted (hallowed : ∀ c ∈ cs, isAllowed c = true) (hquote : '\'' ∉ cs) :
    literal? (cs ++ '\'' :: rest) = some (cs, rest) := by
  induction cs with
  | nil => rfl
  | cons c cs ih =>
    rw [List.forall_mem_cons] at hallowed
    have hc : c ≠ '\'' := fun he => hquote (he ▸ List.mem_cons_self)
    rw [List.cons_append, literal?.eq_2 _ _ hc, if_pos hallowed.1,
      ih hallowed.2 fun hm => hquote (List.mem_cons_of_mem _ hm)]
    rfl

/-- The greatest number of `c` in a row so far, and the number in a row right here. -/
def runStep (c : Char) (sofar : Nat × Nat) (x : Char) : Nat × Nat :=
  let run := if x = c then sofar.2 + 1 else 0
  (max sofar.1 run, run)

theorem longestRun_eq (c : Char) (cs : List Char) :
    longestRun c cs = (cs.foldl (runStep c) (0, 0)).1 := rfl

theorem le_longest (c : Char) (cs : List Char) (sofar : Nat × Nat) :
    sofar.1 ≤ (cs.foldl (runStep c) sofar).1 := by
  induction cs generalizing sofar with
  | nil => exact Nat.le_refl _
  | cons x cs ih => exact Nat.le_trans (Nat.le_max_left ..) (ih (runStep c sofar x))

@[simp] theorem runStep_self (c : Char) (sofar : Nat × Nat) :
    (runStep c sofar c).2 = sofar.2 + 1 := by simp [runStep]

/-- Each character in a row counts. -/
theorem lt_longest (c : Char) (cs : List Char) (sofar : Nat × Nat) :
    sofar.2 < ((c :: cs).foldl (runStep c) sofar).1 :=
  calc sofar.2 < (runStep c sofar c).2 := by simp
    _ ≤ (runStep c sofar c).1 := Nat.le_max_right ..
    _ ≤ _ := le_longest c cs _

theorem not_mem_of_longestRun {c : Char} (h : longestRun c cs = 0) : c ∉ cs := by
  intro hc
  obtain ⟨xs, ys, rfl⟩ := List.append_of_mem hc
  have hlt := lt_longest c ys (xs.foldl (runStep c) (0, 0))
  rw [longestRun_eq, List.foldl_append] at h
  omega

/-- A character that begins no closing quotes and is no part of a line break of two. -/
theorem multilineLiteral?_plain {c : Char}
    (hquotes : ∀ more, c = '\'' → rest = '\'' :: '\'' :: more → False) (hreturn : c ≠ '\r')
    (hc : isAllowed c = true ∨ c = '\n') : multilineLiteral? (c :: rest) =
      (multilineLiteral? rest).map fun (s, rest) => (c :: s, rest) := by
  rw [multilineLiteral?.eq_5 _ _ (fun _ => hquotes _) (fun _ => hquotes _) hquotes
    fun _ he _ => hreturn he]
  exact if_pos (by simpa using hc)

theorem multilineLiteral?_quoted (hcs : ∀ c ∈ cs, isAllowed c = true ∨ c = '\n')
    (sofar : Nat × Nat) (hrun : (cs.foldl (runStep '\'') sofar).1 < 3)
    (hrest : Stops (· == '\'') rest) :
    multilineLiteral? (cs ++ closing '\'' rest) = some (cs, rest) := by
  have hstop : ∀ more, rest = '\'' :: more → False := by
    rintro _ rfl
    cases hrest
  induction cs generalizing sofar with
  | nil => exact multilineLiteral?.eq_3 _ (fun _ => hstop _) hstop
  | cons c cs ih =>
    rw [List.forall_mem_cons] at hcs
    have hreturn : c ≠ '\r' := by
      rintro rfl
      exact absurd hcs.1 (by decide)
    by_cases htwo : c = '\'' ∧ ∃ more, cs ++ closing '\'' rest = '\'' :: '\'' :: more
    · -- the text ends here, or with one more quote
      obtain ⟨rfl, more, htwo⟩ := htwo
      match cs, htwo with
      | [], _ => exact multilineLiteral?.eq_2 _ hstop
      | [x], htwo =>
        cases htwo
        exact multilineLiteral?.eq_1 _
      | x :: y :: cs, htwo =>
        cases htwo
        have hlt := lt_longest '\'' cs (runStep '\'' (runStep '\'' sofar '\'') '\'')
        simp only [runStep_self, List.foldl_cons] at hlt hrun
        omega
    · rw [List.cons_append, multilineLiteral?_plain (fun more hc he => htwo ⟨hc, more, he⟩) hreturn
        hcs.1, ih hcs.2 (runStep '\'' sofar c) hrun]
      rfl

/-! ## The choice -/

theorem isAllowed_of_not_control {c : Char} (h : isControl c = false) :
    isAllowed c = true ∨ c = '\n' := by
  simp only [isControl, Bool.or_eq_false_iff, Bool.and_eq_false_iff, decide_eq_false_iff_not,
    bne_eq_false_iff_eq, beq_eq_false_iff_ne] at h
  obtain ⟨(hprint | rfl) | hnewline, hdelete⟩ := h
  · simp [isAllowed, Nat.le_of_not_lt hprint, hdelete]
  · exact .inl rfl
  · exact .inr hnewline

/-- What the choice of a way without escapes tells of the text. -/
def Quoting.Fits (t : Traits) : Quoting → Prop
  | .literal => t.control = false ∧ t.singleRun = 0 ∧ t.newline = false ∧
      (t.backslash = true ∨ t.doubleRun ≠ 0)
  | .multilineLiteral => t.control = false ∧ t.singleRun < 3
  | .basic | .multilineBasic => True

theorem choose_fits (t : Traits) : (Quoting.choose t).Fits t := by
  unfold Quoting.choose
  split
  · trivial
  next hbasic =>
  split
  · next hliteral =>
    simp only [Bool.and_eq_true, Bool.not_eq_true', beq_iff_eq] at hbasic hliteral
    obtain ⟨⟨hcontrol, hsingle⟩, hnewline⟩ := hliteral
    refine ⟨hcontrol, hsingle, hnewline, ?_⟩
    by_cases hslash : t.backslash = true
    · exact .inl hslash
    · exact .inr fun hdouble =>
        hbasic ⟨⟨⟨hcontrol, Bool.eq_false_iff.2 hslash⟩, hdouble⟩, hnewline⟩
  split
  · trivial
  split
  · next hliteral =>
    simp only [Bool.and_eq_true, Bool.not_eq_true', decide_eq_true_eq] at hliteral
    exact hliteral
  split <;> trivial

theorem allowed_of_traits (h : (Traits.of cs).control = false) :
    ∀ c ∈ cs, isAllowed c = true ∨ c = '\n' := by
  intro c hc
  have hall : ∀ c ∈ cs, ¬ isControl c = true := List.any_eq_false.1 h
  exact isAllowed_of_not_control (Bool.eq_false_iff.2 (hall c hc))

theorem newline_not_mem (h : ¬ (Traits.of cs).newline = true) : '\n' ∉ cs := by
  simpa [Traits.of] using h

/-! ## Texts -/

theorem pastFirstBreak_firstBreak {t : Traits} (h : t.newline = false → pastBreak? cs = none) :
    pastFirstBreak (firstBreak t ++ cs) = cs := by
  unfold firstBreak
  split
  · rfl
  · next hnewline =>
    rw [List.nil_append, pastFirstBreak, h (Bool.eq_false_iff.2 hnewline)]
    rfl

theorem pastBreak?_escapeLines (h : '\n' ∉ cs) :
    pastBreak? (escapeLines 0 cs ++ closing '"' rest) = none := by
  cases cs with
  | nil => rfl
  | cons c cs =>
    have hnewline : c ≠ '\n' := fun he => h (he ▸ List.mem_cons_self)
    by_cases hquote : c = '"'
    · subst hquote
      rfl
    · rw [escapeLines.eq_4 _ _ _ hquote hnewline]
      rcases escape_head c with ⟨more, hc⟩ | ⟨-, -, -, hreturn, -, hc⟩
      · rw [hc]
        rfl
      · rw [hc]
        exact pastBreak?_of_head hnewline hreturn _

theorem string?_basic (h : Stops (· == '"') rest) :
    string? ('"' :: (cs.flatMap escape ++ '"' :: rest)) = some (cs, rest) := by
  have hquotes : ∀ more, cs.flatMap escape ++ '"' :: rest = '"' :: '"' :: more → False := by
    intro more he
    cases cs with
    | nil =>
      cases he
      cases h
    | cons c cs =>
      rw [List.flatMap_cons] at he
      rcases escape_head c with ⟨more, hc⟩ | ⟨hquote, -, -, -, -, hc⟩
      · rw [hc] at he
        cases he
      · rw [hc] at he
        exact hquote (List.cons.inj he).1
  have hlen := length_le_flatMap_escape cs
  rw [string?.eq_2 _ hquotes, basic?_escaped (by simp only [List.length_append]; omega)]

theorem string?_literal (hallowed : ∀ c ∈ cs, isAllowed c = true) (hquote : '\'' ∉ cs)
    (hne : cs ≠ []) : string? ('\'' :: (cs ++ '\'' :: rest)) = some (cs, rest) := by
  have hquotes : ∀ more, cs ++ '\'' :: rest = '\'' :: '\'' :: more → False := by
    intro more he
    cases cs with
    | nil => exact hne rfl
    | cons c cs => exact hquote (List.mem_cons.2 (.inl (List.cons.inj he).1.symm))
  rw [string?.eq_4 _ hquotes, literal?_quoted hallowed hquote]

theorem string?_multilineBasic (h : Stops (· == '"') rest) :
    string? ('"' :: '"' :: '"' :: (firstBreak (Traits.of cs) ++
      (escapeLines 0 cs ++ closing '"' rest))) = some (cs, rest) := by
  rw [string?.eq_1, pastFirstBreak_firstBreak fun hn =>
    pastBreak?_escapeLines (newline_not_mem (Bool.eq_false_iff.1 hn))]
  have hlen := length_le_escapeLines 0 cs
  exact multilineBasic?_escapeLines (Nat.zero_le 2) (by simp only [List.length_append]; omega) h

theorem string?_multilineLiteral (hcontrol : (Traits.of cs).control = false)
    (hrun : (Traits.of cs).singleRun < 3) (h : Stops (· == '\'') rest) :
    string? ('\'' :: '\'' :: '\'' :: (firstBreak (Traits.of cs) ++
      (cs ++ closing '\'' rest))) = some (cs, rest) := by
  have hallowed := allowed_of_traits hcontrol
  have hfirst : (Traits.of cs).newline = false → pastBreak? (cs ++ closing '\'' rest) = none := by
    intro hn
    cases cs with
    | nil => rfl
    | cons c cs =>
      refine pastBreak?_of_head ?_ ?_ _
      · rintro rfl
        exact newline_not_mem (Bool.eq_false_iff.1 hn) List.mem_cons_self
      · rintro rfl
        exact absurd (hallowed _ List.mem_cons_self) (by decide)
  rw [string?.eq_3, pastFirstBreak_firstBreak hfirst]
  exact multilineLiteral?_quoted hallowed (0, 0) hrun h

/-- A quoted text is read back, if no quote follows it. -/
theorem string?_printText (s : String) (h : Stops (fun c => c == '"' || c == '\'') rest) :
    string? (printText s ++ rest) = some (s.toList, rest) := by
  have hdouble : Stops (· == '"') rest := h.imp fun c hc => by simp [hc]
  have hsingle : Stops (· == '\'') rest := h.imp fun c hc => by simp [hc]
  have hfits := choose_fits (Traits.of s.toList)
  simp only [printText]
  generalize s.toList = cs at hfits ⊢
  cases hway : Quoting.choose (Traits.of cs) with
  | basic =>
    simp only [List.cons_append, List.append_assoc]
    exact string?_basic hdouble
  | literal =>
    rw [hway] at hfits
    obtain ⟨hcontrol, hrun, hnewline, hescapes⟩ := hfits
    have hallowed : ∀ c ∈ cs, isAllowed c = true := fun c hc =>
      (allowed_of_traits hcontrol c hc).resolve_right fun he =>
        newline_not_mem (Bool.eq_false_iff.1 hnewline) (he ▸ hc)
    have hne : cs ≠ [] := by
      rintro rfl
      revert hescapes
      decide
    simp only [List.cons_append, List.append_assoc]
    exact string?_literal hallowed (not_mem_of_longestRun hrun) hne
  | multilineBasic =>
    simp only [List.cons_append, List.append_assoc, List.nil_append]
    exact string?_multilineBasic hdouble
  | multilineLiteral =>
    rw [hway] at hfits
    simp only [List.cons_append, List.append_assoc, List.nil_append]
    exact string?_multilineLiteral hfits.1 hfits.2 hsingle

end Toml

end ArrayGraph
