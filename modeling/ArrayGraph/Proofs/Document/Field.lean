import ArrayGraph.Document.Toml.Reader
import ArrayGraph.Proofs.Document.Quoting
import Mathlib.Data.List.Basic
/-!
# Fields of configuration texts read back

The line of a field is read back to its key and its value (`assignment?_field`). Digits are a
plain scalar, which might also be a date, a time or a real number, so these are ruled out
(`scalar?_numeral`). A quoted text has been dealt with already.
-/

namespace ArrayGraph

namespace Toml

variable {cs rest : List Char} {fuel : Nat}

/-! ## Digits are no dates -/

section Digits

variable (hcs : ∀ c ∈ cs, c.isDigit = true)

include hcs

theorem past?_digits {c : Char} (hc : c.isDigit = false) : past? c cs = none := by
  cases cs with
  | nil => rfl
  | cons x cs =>
    have hx : x ≠ c := by
      rintro rfl
      rw [hcs x List.mem_cons_self] at hc
      cases hc
    exact if_neg hx

theorem fixed?_digits {count n : Nat} (h : fixed? count cs = some (n, rest)) :
    ∀ c ∈ rest, c.isDigit = true := by
  unfold fixed? at h
  dsimp only at h
  split at h
  · cases h
    exact fun c hc => hcs c (List.mem_of_mem_drop hc)
  · cases h

theorem date?_digits : date? cs = none := by
  unfold date?
  cases h : fixed? 4 cs with
  | none => rfl
  | some split =>
    have hrest := past?_digits (fixed?_digits hcs h) (c := '-') rfl
    simp only [Option.bind_eq_bind, Option.bind_some, hrest, Option.bind_none]

theorem time?_digits : time? cs = none := by
  unfold time?
  cases h : fixed? 2 cs with
  | none => rfl
  | some split =>
    have hrest := past?_digits (fixed?_digits hcs h) (c := ':') rfl
    simp only [Option.bind_eq_bind, Option.bind_some, hrest, Option.bind_none]

theorem isDateTime_digits : isDateTime cs = false := by
  rw [isDateTime, date?_digits hcs, time?_digits hcs]
  rfl

theorem grouped?_digits (hne : cs ≠ []) : grouped? Char.isDigit cs = some cs := by
  induction cs with
  | nil => exact absurd rfl hne
  | cons c cs ih =>
    rw [List.forall_mem_cons] at hcs
    by_cases hnil : cs = []
    · subst hnil
      exact if_pos hcs.1
    · have hunder : ∀ more, cs = '_' :: more → False := by
        rintro more rfl
        cases hcs.2 _ List.mem_cons_self
      rw [grouped?.eq_4 _ _ _ hnil hunder, if_pos hcs.1, ih hcs.2 hnil]
      rfl

end Digits

/-! ## Counts -/

theorem numberIn_numeral (n : Nat) : numberIn 10 (digits n) = n := by
  have hvalue : numberIn 10 (digits n) = ofDigits (digits n) := by
    refine List.foldl_ext _ _ _ fun k c hc => ?_
    rw [digitValue, if_pos (isDigit_of_mem_digits hc)]
  rw [hvalue, ofDigits_digits]

theorem decimal?_numeral (n : Nat) : decimal? (digits n) = some (digits n) := by
  obtain ⟨d, ds, hd, -, hzero⟩ := numeral_cases n
  rw [decimal?.eq_2, grouped?_digits (fun _ => isDigit_of_mem_digits) (digits_ne_nil n)]
  intro head tail he
  rw [hd] at he
  cases he
  cases hzero rfl

theorem sign_numeral (n : Nat) : sign (digits n) = (false, digits n) := by
  rw [sign.eq_3]
  · exact fun _ => numeral_ne n rfl _
  · exact fun _ => numeral_ne n rfl _

theorem integer?_numeral {n : Nat} (h : n < integerBound) :
    integer? (digits n) = some (n : Int) := by
  obtain ⟨d, ds, hd, -, hzero⟩ := numeral_cases n
  have hrange : -(integerBound : Int) ≤ n ∧ (n : Int) < integerBound := by omega
  rw [integer?.eq_def]
  -- the marks of other bases follow a zero, and no digit follows it
  split
  iterate 3
    next he =>
    rw [hd] at he
    cases he
    cases hzero rfl
  next =>
  simp [sign_numeral, decimal?_numeral, numberIn_numeral, hrange]

theorem scalar?_numeral {n : Nat} (h : n < integerBound) :
    scalar? (digits n) = some (.integer n) := by
  rw [scalar?, if_neg (numeral_ne n rfl _), if_neg (numeral_ne n rfl _),
    isDateTime_digits fun _ => isDigit_of_mem_digits, integer?_numeral h]
  rfl

theorem plain?_numeral {n : Nat} (h : n < integerBound) (hrest : Stops isPlain rest) :
    plain? (digits n ++ rest) = some (.integer n, rest) := by
  have hplain : ∀ c ∈ digits n, isPlain c = true := fun c hc => by
    simp [isPlain, Char.isAlphanum, isDigit_of_mem_digits hc]
  simp only [plain?, takeWhile_of_stops hplain hrest, dropWhile_of_stops hplain hrest,
    date?_digits fun _ => isDigit_of_mem_digits, scalar?_numeral h, Option.map_some]

/-! ## Values -/

/-- What a field that is not absent says. -/
def fieldDocument? : OutlineField → Option Document
  | .count n => some (.integer n)
  | .text s => some (.text s)
  | .absent => none

theorem value?_count {n : Nat} (h : n < integerBound) (depth : Nat) (hrest : Stops isPlain rest) :
    value? (fuel + 1) depth (digits n ++ rest) = some (.integer n, rest) := by
  have hhead : ∀ {c cs}, c.isDigit = false → digits n ++ rest = c :: cs → False :=
    fun hc => numeral_append_ne n rest hc _
  rw [value?.eq_6 _ _ _ (fun _ => hhead rfl) (fun _ => hhead rfl) (fun _ => hhead rfl)
    (fun _ => hhead rfl), plain?_numeral h hrest]

theorem printText_head (s : String) :
    ∃ more, printText s = '"' :: more ∨ printText s = '\'' :: more := by
  simp only [printText]
  cases Quoting.choose (Traits.of s.toList) with
  | basic | multilineBasic => exact ⟨_, .inl rfl⟩
  | literal | multilineLiteral => exact ⟨_, .inr rfl⟩

theorem value?_text (s : String) (depth : Nat)
    (hrest : Stops (fun c => c == '"' || c == '\'') rest) :
    value? (fuel + 1) depth (printText s ++ rest) = some (.text s, rest) := by
  have hstring := string?_printText s hrest
  have hvalue : value? (fuel + 1) depth (printText s ++ rest) =
      (string? (printText s ++ rest)).map fun p => (.text (String.ofList p.1), p.2) := by
    obtain ⟨more, he | he⟩ := printText_head s
    · rw [he, List.cons_append]
      exact value?.eq_4 ..
    · rw [he, List.cons_append]
      exact value?.eq_5 ..
  rw [hvalue, hstring]
  exact congrArg (fun s => some (Document.text s, rest)) String.ofList_toList

/-- After an equals sign and a blank, the text is read to the document up to the end of the
line. -/
def WritesValue (written : List Char) (d : Document) : Prop :=
  ∀ fuel depth more, value? (fuel + 1) depth (skipBlanks (' ' :: (written ++ '\n' :: more))) =
    some (d, '\n' :: more)

theorem writesValue_count {n : Nat} (h : n < integerBound) :
    WritesValue (digits n) (.integer n) := by
  intro fuel depth more
  have hskip : skipBlanks (' ' :: (digits n ++ '\n' :: more)) =
      digits n ++ '\n' :: more := by
    obtain ⟨d, ds, hd, hdigit, -⟩ := numeral_cases n
    have hblank : ¬ isBlank d = true := by
      intro hb
      simp only [isBlank, Bool.or_eq_true, beq_iff_eq] at hb
      rcases hb with rfl | rfl <;> cases hdigit
    rw [hd]
    exact List.dropWhile_cons_of_neg hblank
  rw [hskip]
  exact value?_count h depth rfl

theorem writesValue_text (s : String) : WritesValue (printText s) (.text s) := by
  intro fuel depth more
  have hskip : skipBlanks (' ' :: (printText s ++ '\n' :: more)) = printText s ++ '\n' :: more := by
    obtain ⟨tail, he | he⟩ := printText_head s <;> rw [he] <;> rfl
  rw [hskip]
  exact value?_text s depth rfl

/-- A field that is not absent is written as its key and its value on a line. -/
theorem printField?_eq_some {key : String} {f : OutlineField} {text : List Char}
    (h : printField? (key, f) = some text) :
    (fieldDocument? f = none ∧ text = []) ∨ ∃ d written, fieldDocument? f = some d ∧
      WritesValue written d ∧ text = key.toList ++ ' ' :: '=' :: ' ' :: (written ++ ['\n']) := by
  cases f with
  | count n =>
    rw [printField?] at h
    split at h
    · next hn =>
      cases h
      exact .inr ⟨_, _, rfl, writesValue_count hn, by simp⟩
    · cases h
  | text s =>
    cases h
    exact .inr ⟨_, _, rfl, writesValue_text s, by simp⟩
  | absent =>
    cases h
    exact .inl ⟨rfl, rfl⟩

/-! ## Keys -/

/-- The text is a key that stands without quotes. -/
def IsBareKey (key : String) : Prop := key.toList ≠ [] ∧ ∀ c ∈ key.toList, isBare c = true

instance (key : String) : Decidable (IsBareKey key) :=
  decidable_of_iff ((!key.toList.isEmpty && key.toList.all isBare) = true) (by simp [IsBareKey])

/-- What begins a key begins nothing else, and no key begins with anything else. -/
theorem bareKey_append_ne {key : String} (h : IsBareKey key) (rest : List Char) {c : Char}
    (hc : isBare c = false) (cs : List Char) : key.toList ++ rest ≠ c :: cs :=
  append_ne_cons h.1 h.2 rest hc cs

theorem skipBlanks_bareKey {key : String} (h : IsBareKey key) (rest : List Char) :
    skipBlanks (key.toList ++ rest) = key.toList ++ rest := by
  have hne : ∀ {c cs}, isBare c = false → key.toList ++ rest ≠ c :: cs :=
    fun hc => bareKey_append_ne h rest hc _
  unfold skipBlanks
  generalize key.toList ++ rest = cs at hne
  cases cs with
  | nil => rfl
  | cons c cs =>
    refine List.dropWhile_cons_of_neg fun hb => ?_
    simp only [isBlank, Bool.or_eq_true, beq_iff_eq] at hb
    rcases hb with rfl | rfl <;> exact hne rfl rfl

theorem simpleKey?_bare {key : String} (h : IsBareKey key) (hrest : Stops isBare rest) :
    simpleKey? (key.toList ++ rest) = some (key, rest) := by
  have hhead : ∀ {c cs}, isBare c = false → key.toList ++ rest = c :: cs → False :=
    fun hc => bareKey_append_ne h rest hc _
  have hne : key.toList.isEmpty = false := List.isEmpty_eq_false_iff.2 h.1
  rw [simpleKey?.eq_3 _ (fun _ => hhead rfl) (fun _ => hhead rfl), takeWhile_of_stops h.2 hrest,
    dropWhile_of_stops h.2 hrest, hne, String.ofList_toList]
  rfl

theorem key?_bare {key : String} (h : IsBareKey key) (hrest : Stops isBare rest)
    (hdot : ∀ more, skipBlanks rest = '.' :: more → False) :
    key? (key.toList ++ rest) = some ([key], skipBlanks rest) := by
  rw [key?, depthLimit, keyParts?.eq_2, skipBlanks_bareKey h, simpleKey?_bare h hrest]
  dsimp only
  split
  · next he => exact (hdot _ he).elim
  · rfl

/-! ## Lines -/

theorem assignment?_field {p : Progress} {key : String} {written more : List Char} {d : Document}
    {root : Members} (hkey : IsBareKey key) (hd : WritesValue written d)
    (hroot : Members.change? p.root p.current (Members.insert? · [key] d) = some root) :
    assignment? p (key.toList ++ ' ' :: '=' :: ' ' :: (written ++ '\n' :: more)) =
      some ({ p with root }, more) := by
  have hpath : key? (key.toList ++ ' ' :: '=' :: ' ' :: (written ++ '\n' :: more)) =
      some ([key], '=' :: ' ' :: (written ++ '\n' :: more)) := key?_bare hkey rfl nofun
  have hvalue := hd (2 * (' ' :: (written ++ '\n' :: more)).length + 1) 0 more
  have hend : endLine? ('\n' :: more) = some more := rfl
  rw [assignment?, hpath]
  simp only [hvalue, hroot, hend]

end Toml

end ArrayGraph
