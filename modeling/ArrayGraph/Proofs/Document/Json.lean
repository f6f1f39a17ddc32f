import ArrayGraph.Proofs.Document.Numeral
import Mathlib.Data.List.DropRight
import Mathlib.Data.List.Forall2
/-!
# JSON texts read back

What `JsonText.print` writes says what the outline does: `JsonText.parse?` reads it back to
`JsonText.document` of the outline. `Writes` says so of a part of a text: wherever it stands,
it is read to the document and nothing of what follows is touched. An object does so if the
values of its members do (`writes_object`).
-/

namespace ArrayGraph

namespace JsonText

variable {cs rest : List Char}

/-! ## Strings -/

/-- A character is escaped by a letter of its own or by number, or it stands for itself. -/
theorem escape_cases (c : Char) :
    (∃ l, l ≠ 'u' ∧ escaped? l = some c ∧ escape c = ['\\', l]) ∨
    (c.toNat < 0x20 ∧ escape c =
      ['\\', 'u', '0', '0', Nat.digitChar (c.toNat / 16), Nat.digitChar (c.toNat % 16)]) ∨
    (c ≠ '"' ∧ c ≠ '\\' ∧ 0x20 ≤ c.toNat ∧ escape c = [c]) := by
  unfold escape
  split
  case h_8 hquote hslash _ _ _ _ _ =>
    split
    · next h => exact .inr (.inl ⟨h, rfl⟩)
    · next h => exact .inr (.inr ⟨hquote, hslash, Nat.le_of_not_lt h, rfl⟩)
  all_goals exact .inl ⟨_, by decide, rfl, rfl⟩

theorem units?_escape (c : Char) (rest : List Char) :
    units? (escape c ++ rest) = (units? rest).map fun (ns, rest) => (c.toNat :: ns, rest) := by
  rcases escape_cases c with ⟨l, hl, he, hc⟩ | ⟨h, hc⟩ | ⟨hquote, hslash, h, hc⟩
  · have hu : ∀ (a b c d : Char) (more : List Char), l = 'u' → rest = a :: b :: c :: d :: more →
        False := fun _ _ _ _ _ hu _ => hl hu
    simp only [hc, List.cons_append, List.nil_append, units?.eq_4 _ _ hu, he]
    cases units? rest <;> rfl
  · have hhex : hexNumber? ['0', '0', Nat.digitChar (c.toNat / 16), Nat.digitChar (c.toNat % 16)] =
        some c.toNat :=
      hexNumber?_pair (hexValue?_digitChar _ (by omega)) (hexValue?_digitChar _ (by omega))
    simp only [hc, List.cons_append, List.nil_append, units?, hhex]
    cases units? rest <;> rfl
  · simp only [hc, List.cons_append, List.nil_append]
    rw [units?.eq_5 _ _ hquote (fun _ _ _ _ _ hs _ => hslash hs) (fun _ _ hs _ => hslash hs)]
    simp [hslash, Nat.not_lt.2 h]

theorem units?_escaped (cs rest : List Char) :
    units? (cs.flatMap escape ++ '"' :: rest) = some (cs.map Char.toNat, rest) := by
  induction cs with
  | nil => rfl
  | cons c cs ih =>
    rw [List.flatMap_cons, List.append_assoc, units?_escape, ih]
    rfl

/-- Every character spells itself, for none is half of a pair. -/
theorem spell?_chars (cs : List Char) : spell? (cs.map Char.toNat) = some cs := by
  induction cs with
  | nil => rfl
  | cons c cs ih =>
    have hvalid : c.toNat < 0xd800 ∨ (0xdfff < c.toNat ∧ c.toNat < 0x110000) := c.valid
    have hhigh : isHighSurrogate c.toNat = false := by
      simp only [isHighSurrogate, Bool.and_eq_false_iff, decide_eq_false_iff_not]
      omega
    have hlow : isLowSurrogate c.toNat = false := by
      simp only [isLowSurrogate, Bool.and_eq_false_iff, decide_eq_false_iff_not]
      omega
    rw [List.map_cons, spell?.eq_def]
    simp [hhigh, hlow, ih]

theorem string?_escaped (s : String) (rest : List Char) :
    string? (s.toList.flatMap escape ++ '"' :: rest) = some (some s, rest) := by
  simp only [string?, units?_escaped, spell?_chars, Option.map_some, String.ofList_toList]

/-! ## Numbers -/

/-- Whether a numeral would go on with the character. -/
def goesOn (c : Char) : Bool := c.isDigit || c == '.' || c == 'e' || c == 'E'

theorem digits?_numeral (n : Nat) (h : Stops goesOn rest) :
    digits? (digits n ++ rest) = some (digits n, rest) := by
  have hdigits : ∀ c ∈ digits n, c.isDigit = true := fun c => isDigit_of_mem_digits
  have hstops : Stops Char.isDigit rest := h.imp fun c hc => by simp [goesOn, hc]
  have hne : digits n ≠ [] := (digits_ne_nil n)
  simp [digits?, takeWhile_of_stops hdigits hstops, dropWhile_of_stops hdigits hstops, hne]

theorem fraction?_stops (h : Stops goesOn rest) : fraction? rest = some (false, rest) := by
  unfold fraction?
  split
  · exact absurd h (by simp [Stops, goesOn])
  · rfl

theorem exponent?_stops (h : Stops goesOn rest) : exponent? rest = some (false, rest) := by
  cases rest with
  | nil => rfl
  | cons c rest =>
    have hc : (c == 'e' || c == 'E') = false := by
      simp only [Stops, goesOn, Bool.or_eq_false_iff] at h ⊢
      exact ⟨h.1.2, h.2⟩
    simp only [exponent?, hc, Bool.false_eq_true, if_false]

theorem number?_numeral (n : Nat) (h : Stops goesOn rest) :
    number? (digits n ++ rest) = some (.integer n, rest) := by
  obtain ⟨d, ds, hd, hdigit, hzero⟩ := numeral_cases n
  have hsign : number? (digits n ++ rest) = unsigned? false (digits n ++ rest) := by
    rw [hd, List.cons_append, number?.eq_2]
    intro _ he
    cases he
    cases hdigit
  have hlead : ¬ ((digits n).head? = some '0' ∧ (digits n).length ≠ 1) := by
    rw [hd]
    rintro ⟨he, hlen⟩
    cases he
    exact hlen (by rw [hzero rfl]; rfl)
  simp only [hsign, unsigned?, digits?_numeral n h, fraction?_stops h, exponent?_stops h,
    Option.bind_eq_bind, Option.bind_some, if_neg hlead, ofDigits_digits, Bool.false_or,
    Bool.false_and, Bool.false_eq_true, if_false]

/-! ## Values -/

@[simp] theorem skip_skip (cs : List Char) : skip (skip cs) = skip cs :=
  List.dropWhile_idempotent _ _

theorem value?_skip (fuel : Nat) (cs : List Char) : value? fuel (skip cs) = value? fuel cs := by
  cases fuel with
  | zero => rfl
  | succ fuel => simp only [value?, skip_skip]

theorem members?_skip (fuel : Nat) (cs : List Char) :
    members? fuel (skip cs) = members? fuel cs := by
  cases fuel with
  | zero => rfl
  | succ fuel => simp only [members?, skip_skip]

/-- Wherever the text stands, it is read to the document. -/
def Writes (cs : List Char) (d : Document) : Prop :=
  ∀ fuel rest, cs.length ≤ fuel → Stops goesOn rest → value? fuel (cs ++ rest) = some (d, rest)

/-- A key with a text that is read to the document under that key. -/
def WritesMember (m : String × List Char) (d : String × Document) : Prop :=
  m.1 = d.1 ∧ Writes m.2 d.2

theorem writes_count (n : Nat) : Writes (digits n) (.integer n) := by
  intro fuel rest hfuel hrest
  obtain ⟨d, ds, hd, hdigit, -⟩ := numeral_cases n
  rw [← number?_numeral n hrest]
  rw [hd] at hfuel ⊢
  obtain ⟨fuel, rfl⟩ : ∃ k, fuel = k + 1 := ⟨fuel - 1, by simp at hfuel; omega⟩
  have hblank : isBlank d = false := by
    refine Bool.eq_false_iff.2 fun hb => ?_
    simp only [isBlank, Bool.or_eq_true, beq_iff_eq] at hb
    rcases hb with ((rfl | rfl) | rfl) | rfl <;> cases hdigit
  have hskip : skip (d :: ds ++ rest) = d :: (ds ++ rest) :=
    List.dropWhile_cons_of_neg (Bool.not_eq_true _ ▸ hblank)
  rw [value?, hskip]
  -- no other kind of value begins with a digit
  split
  case h_7 => rfl
  all_goals
    next he =>
    cases he
    cases hdigit

theorem writes_text (s : String) : Writes (printText s) (.text s) := by
  intro fuel rest hfuel _
  obtain ⟨fuel, rfl⟩ : ∃ k, fuel = k + 1 := ⟨fuel - 1, by simp [printText] at hfuel; omega⟩
  have hcs : printText s ++ rest = '"' :: (s.toList.flatMap escape ++ '"' :: rest) := by
    simp [printText]
  have hskip : skip (printText s ++ rest) = printText s ++ rest := by
    rw [hcs]
    rfl
  rw [value?, hskip, hcs]
  simp only [string?_escaped, Option.map_some, Option.getD_some]

theorem writes_null : Writes ['n', 'u', 'l', 'l'] .null := by
  intro fuel rest hfuel _
  obtain ⟨fuel, rfl⟩ : ∃ k, fuel = k + 1 := ⟨fuel - 1, by simp at hfuel; omega⟩
  rfl

/-- What the field of an outline says. -/
def fieldDocument : OutlineField → Document
  | .count n => .integer n
  | .text s => .text s
  | .absent => .null

theorem writes_field (f : OutlineField) : Writes (printField f) (fieldDocument f) := by
  cases f with
  | count n => exact writes_count n
  | text s => exact writes_text s
  | absent => exact writes_null

/-! ## Objects -/

/-- A new line inside so many braces. -/
def line (depth : Nat) : List Char := '\n' :: List.replicate (2 * depth) ' '

theorem skip_line (depth : Nat) (cs : List Char) : skip (line depth ++ cs) = skip cs := by
  refine List.dropWhile_append_of_pos fun c hc => ?_
  rcases List.mem_cons.1 hc with rfl | hc
  · rfl
  · rw [List.eq_of_mem_replicate hc]
    rfl

/-- A member on a line of its own. -/
def memberText (depth : Nat) (m : String × List Char) : List Char :=
  line (depth + 1) ++ printText m.1 ++ [':', ' '] ++ m.2

theorem printObject_eq (depth : Nat) {ms : List (String × List Char)} (h : ms ≠ []) :
    printObject depth ms =
      '\x7b' :: (List.intercalate [','] (ms.map (memberText depth)) ++ line depth ++ ['\x7d']) := by
  cases ms with
  | nil => exact absurd rfl h
  | cons m ms => rfl

theorem skip_memberText (depth : Nat) (key : String) (cs rest : List Char) :
    skip (memberText depth (key, cs) ++ rest) =
      '"' :: (key.toList.flatMap escape ++ '"' :: ':' :: ' ' :: (cs ++ rest)) := by
  simp only [memberText, List.append_assoc, skip_line]
  simp [printText, skip, isBlank]

theorem members?_memberText {depth fuel : Nat} {key : String} {d : Document} (h : Writes cs d)
    (hfuel : cs.length ≤ fuel) (hrest : Stops goesOn rest) :
    members? (fuel + 1) (memberText depth (key, cs) ++ rest) =
      match skip rest with
      | '\x7d' :: rest => some ([(some key, d)], rest)
      | ',' :: rest => (members? fuel rest).map fun (ms, rest) => ((some key, d) :: ms, rest)
      | _ => none := by
  have hcolon : skip (':' :: ' ' :: (cs ++ rest)) = ':' :: ' ' :: (cs ++ rest) := rfl
  have hvalue : value? fuel (' ' :: (cs ++ rest)) = some (d, rest) := by
    rw [← value?_skip]
    exact (value?_skip fuel (cs ++ rest)).trans (h fuel rest hfuel hrest)
  have hstep := members?.eq_2 (memberText depth (key, cs) ++ rest) fuel
  simp only [skip_memberText, string?_escaped, hcolon, hvalue] at hstep
  exact hstep

theorem intercalate_cons_cons (sep x y : List Char) (xs : List (List Char)) :
    List.intercalate sep (x :: y :: xs) = x ++ (sep ++ List.intercalate sep (y :: xs)) := rfl

/-- All members, with commas between. -/
def membersText (depth : Nat) (ms : List (String × List Char)) : List Char :=
  List.intercalate [','] (ms.map (memberText depth))

theorem skip_membersText (depth : Nat) {ms : List (String × List Char)} (h : ms ≠ [])
    (rest : List Char) : ∃ more, skip (membersText depth ms ++ rest) = '"' :: more := by
  cases ms with
  | nil => exact absurd rfl h
  | cons m ms =>
    cases ms with
    | nil =>
      simp only [membersText, List.map_cons, List.map_nil, List.intercalate_singleton]
      exact ⟨_, skip_memberText ..⟩
    | cons m' ms =>
      simp only [membersText, List.map_cons, intercalate_cons_cons, List.append_assoc]
      exact ⟨_, skip_memberText ..⟩

/-- Members that each write a document write all of them, up to the closing brace. -/
theorem members?_membersText (depth : Nat) {fuel : Nat} {ms : List (String × List Char)}
    {ds : List (String × Document)} (rest : List Char)
    (h : List.Forall₂ WritesMember ms ds) (hne : ms ≠ [])
    (hfuel : (membersText depth ms).length ≤ fuel) :
    members? fuel (membersText depth ms ++ (line depth ++ '\x7d' :: rest)) =
      some (ds.map fun d => (some d.1, d.2), rest) := by
  unfold membersText at hfuel ⊢
  induction h generalizing fuel with
  | nil => exact absurd rfl hne
  | @cons m d ms ds hm hms ih =>
    obtain ⟨key, cs⟩ := m
    obtain ⟨_, d⟩ := d
    obtain ⟨rfl, hd⟩ := hm
    replace hd : Writes cs d := hd
    have hlen : cs.length < (memberText depth (key, cs)).length := by
      simp [memberText]
      omega
    cases hms with
    | nil =>
      simp only [List.map_cons, List.map_nil, List.intercalate_singleton] at hfuel ⊢
      obtain ⟨fuel, rfl⟩ : ∃ k, fuel = k + 1 := ⟨fuel - 1, by omega⟩
      have hstops : Stops goesOn (line depth ++ '\x7d' :: rest) := rfl
      rw [members?_memberText hd (by omega) hstops, skip_line]
      rfl
    | @cons m' d' ms ds hm' hms =>
      simp only [List.map_cons, intercalate_cons_cons, List.length_append, List.length_cons,
        List.append_assoc, List.cons_append, List.nil_append] at hfuel ih ⊢
      obtain ⟨fuel, rfl⟩ : ∃ k, fuel = k + 1 := ⟨fuel - 1, by omega⟩
      have hcomma : ∀ more, Stops goesOn (',' :: more) ∧ skip (',' :: more) = ',' :: more :=
        fun _ => ⟨rfl, rfl⟩
      have hrest : members? fuel _ = _ := ih (List.cons_ne_nil _ _) (by omega)
      rw [members?_memberText hd (by omega) (hcomma _).1, (hcomma _).2]
      simp only [hrest, Option.map_some]

theorem tableOf_spelled (ds : List (String × Document)) :
    tableOf (ds.map fun d => (some d.1, d.2)) = .table ds := by
  have hm : (ds.map fun d => (some d.1, d.2)).mapM (fun m => m.1.map (·, m.2)) = some ds := by
    induction ds with
    | nil => rfl
    | cons d ds ih => simp [List.mapM_cons, ih]
  unfold tableOf
  split
  · next ms h =>
    cases h.symm.trans hm
    rfl
  · next h => cases h.symm.trans hm

/-- An object writes the table of what its values write. -/
theorem writes_object (depth : Nat) {ms : List (String × List Char)} {ds : List (String × Document)}
    (h : List.Forall₂ WritesMember ms ds) :
    Writes (printObject depth ms) (.table ds) := by
  intro fuel rest hfuel _
  by_cases hne : ms = []
  · subst hne
    cases h
    obtain ⟨fuel, rfl⟩ : ∃ k, fuel = k + 1 := ⟨fuel - 1, by simp [printObject] at hfuel; omega⟩
    rfl
  · have hcs : printObject depth ms ++ rest =
        '\x7b' :: (membersText depth ms ++ (line depth ++ '\x7d' :: rest)) := by
      simp [printObject_eq depth hne, membersText]
    have hlen : (membersText depth ms).length < (printObject depth ms).length := by
      simp only [printObject_eq depth hne, membersText, List.length_cons, List.length_append]
      omega
    obtain ⟨fuel, rfl⟩ : ∃ k, fuel = k + 1 := ⟨fuel - 1, by omega⟩
    have hmembers := members?_membersText depth rest h hne (by omega : _ ≤ fuel)
    obtain ⟨more, hmore⟩ := skip_membersText depth hne (line depth ++ '\x7d' :: rest)
    rw [← members?_skip, hmore] at hmembers
    have hskip : ∀ cs, skip ('\x7b' :: cs) = '\x7b' :: cs := fun _ => rfl
    rw [hcs, value?, hskip]
    simp only [hmore]
    refine (congrArg (Option.map fun (ms, rest) => (tableOf ms, rest)) hmembers).trans ?_
    exact congrArg (fun d => some (d, rest)) (tableOf_spelled ds)

/-! ## Outlines -/

def fieldDocuments (fields : List (String × OutlineField)) : List (String × Document) :=
  fields.map fun (key, f) => (key, fieldDocument f)

/-- What the text of an outline says: a field that is absent is null. -/
def document (o : Outline) : Document :=
  .table (fieldDocuments o.fields ++ o.sections.map fun (key, fields) =>
    (key, .table (fieldDocuments fields)))

theorem writes_fields (fields : List (String × OutlineField)) :
    List.Forall₂ WritesMember
      (fields.map fun (key, f) => (key, printField f)) (fieldDocuments fields) := by
  rw [fieldDocuments, List.forall₂_map_left_iff, List.forall₂_map_right_iff, List.forall₂_same]
  exact fun (_, f) _ => ⟨rfl, writes_field f⟩

theorem writes_sections (sections : List (String × List (String × OutlineField))) :
    List.Forall₂ WritesMember
      (sections.map fun (key, fields) => (key, printFields 1 fields))
      (sections.map fun (key, fields) => (key, Document.table (fieldDocuments fields))) := by
  rw [List.forall₂_map_left_iff, List.forall₂_map_right_iff, List.forall₂_same]
  exact fun (_, fields) _ => ⟨rfl, writes_object 1 (writes_fields fields)⟩

/-- The text of an outline is read back. -/
theorem parse?_print (o : Outline) : parse? (print o) = some (document o) := by
  have hwrites : Writes (print o).toList (document o) := by
    rw [print, String.toList_ofList]
    exact writes_object 0 (List.rel_append (writes_fields o.fields) (writes_sections o.sections))
  have hvalue := hwrites (2 * (print o).toList.length + 2) [] (by omega) trivial
  rw [List.append_nil] at hvalue
  rw [parse?, hvalue]
  rfl

end JsonText

end ArrayGraph
