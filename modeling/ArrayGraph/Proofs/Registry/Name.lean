import ArrayGraph.InstanceName
import Mathlib.Data.List.TakeWhile
/-!
# Instance names in text

A name is read back from its text if and only if it is well-formed: what is computed is
called something without `/` and `$`, and the place is known in full or not at all. All
names that a text spells are well-formed, so writing puts a name into a normal form:
`names_read_back`. The reader accepts more than the writer writes (plus signs, leading
zeros, a slash at the end).

Numbered names are told apart by their texts whatever the characters in them are, since
no digit is a `$`: `numbered_text_inj`.
-/

namespace ArrayGraph

namespace InstanceName

/-- The text can stand for what is computed: it is not empty and has no separators. -/
def IsPart (s : String) : Prop := s ≠ "" ∧ '/' ∉ s.toList ∧ '$' ∉ s.toList

/-- All of the place is known, or nothing is. -/
def PlaceComplete (n : InstanceName) : Prop :=
  (n.compileId.isSome ∧ n.line.isSome ∧ n.column.isSome) ∨
    (n.compileId = none ∧ n.line = none ∧ n.column = none)

structure WellFormed (n : InstanceName) : Prop where
  primitive : IsPart n.primitive
  place : n.PlaceComplete

instance (s : String) : Decidable (IsPart s) := inferInstanceAs (Decidable (_ ∧ _))

instance (n : InstanceName) : Decidable n.PlaceComplete := inferInstanceAs (Decidable (_ ∨ _))

instance (n : InstanceName) : Decidable n.WellFormed :=
  decidable_of_iff (IsPart n.primitive ∧ n.PlaceComplete)
    ⟨fun h => ⟨h.1, h.2⟩, fun h => ⟨h.primitive, h.place⟩⟩

/-! ## Cutting -/

variable {c : Char} {cs xs : List Char}

theorem cut_of_not_mem (h : c ∉ cs) : cut c cs = (cs, none) := by
  have hall : ∀ x ∈ cs, (x != c) = true := by
    intro x hx
    rw [bne_iff_ne]
    rintro rfl
    exact h hx
  unfold cut
  rw [List.takeWhile_eq_self_iff.2 hall, List.dropWhile_eq_nil_iff.2 hall]
  rfl

theorem cut_append (h : c ∉ xs) (ys : List Char) : cut c (xs ++ c :: ys) = (xs, some ys) := by
  have hall : ∀ x ∈ xs, (x != c) = true := by
    intro x hx
    rw [bne_iff_ne]
    rintro rfl
    exact h hx
  unfold cut
  rw [List.takeWhile_append_of_pos hall, List.dropWhile_append_of_pos hall]
  simp

/-- A text is cut at the first `c`, if it has one. -/
theorem cut_cases (c : Char) (cs : List Char) :
    (c ∉ cs ∧ cut c cs = (cs, none)) ∨
      ∃ xs ys, c ∉ xs ∧ cs = xs ++ c :: ys ∧ cut c cs = (xs, some ys) := by
  by_cases h : c ∈ cs
  · obtain ⟨xs, ys, rfl, hx⟩ := List.eq_append_cons_of_mem h
    exact .inr ⟨xs, ys, hx, rfl, cut_append hx ys⟩
  · exact .inl ⟨h, cut_of_not_mem h⟩

/-! ## Numbers -/

theorem number?_digits {n limit : Nat} (h : n < limit) : number? limit (digits n) = some n := by
  have hall : (digits n).all Char.isDigit = true :=
    List.all_eq_true.2 fun c hc => isDigit_of_mem_digits hc
  have hsign : (digits n).head? ≠ some '+' := fun hp =>
    not_mem_digits rfl n (List.mem_of_head? hp)
  simp only [number?, if_neg hsign, ofDigits_digits]
  exact if_pos ⟨digits_ne_nil n, hall, h⟩

theorem number64?_digits (k : UInt64) : number64? (digits k.toNat) = some k := by
  rw [number64?, number?_digits k.toNat_lt_size, Option.map_some, UInt64.ofNat_toNat]

theorem number32?_digits (k : UInt32) : number32? (digits k.toNat) = some k := by
  rw [number32?, number?_digits k.toNat_lt_size, Option.map_some, UInt32.ofNat_toNat]

/-! ## What is written is read back -/

/-- What comes before the place, after the lead. -/
def headChars (p : String) : Option UInt64 → List Char
  | some k => p.toList ++ '$' :: digits k.toNat
  | none => p.toList

def placeChars (id : UInt64) (line column : UInt32) : List Char :=
  digits id.toNat ++ '$' :: (digits line.toNat ++ '$' :: digits column.toNat)

theorem chars_placeless (p : String) (sequence : Option UInt64) :
    chars { primitive := p, sequence } = lead.toList ++ headChars p sequence := by
  cases sequence <;> simp [chars, headChars]

theorem chars_located (p : String) (sequence : Option UInt64) (id : UInt64)
    (line column : UInt32) : chars ⟨p, sequence, some id, some line, some column⟩ =
      lead.toList ++ (headChars p sequence ++ '/' :: placeChars id line column) := by
  cases sequence <;> simp [chars, headChars, placeChars]

theorem slash_not_mem_head {p : String} (hp : IsPart p) (sequence : Option UInt64) :
    '/' ∉ headChars p sequence := by
  cases sequence with
  | none => exact hp.2.1
  | some k =>
    rw [headChars, List.mem_append, List.mem_cons]
    rintro (hm | he | hm)
    · exact hp.2.1 hm
    · cases he
    · exact not_mem_digits rfl _ hm

theorem parseHead?_of_cut {p : List Char} (hp : p ≠ []) (k : Option (List Char)) :
    cut '$' cs = (p, k) → parseHead? cs = match k with
      | none => some { primitive := String.ofList p }
      | some k => (number64? k).map (numbered (String.ofList p)) := by
  intro h
  unfold parseHead?
  rw [h]
  cases p with
  | nil => contradiction
  | cons => cases k <;> rfl

theorem parseHead?_headChars {p : String} (hp : IsPart p) (sequence : Option UInt64) :
    parseHead? (headChars p sequence) = some { primitive := p, sequence } := by
  obtain ⟨hne, -, hd⟩ := hp
  have hne : p.toList ≠ [] := fun h => hne (String.toList_eq_nil_iff.1 h)
  cases sequence with
  | none => rw [headChars, parseHead?_of_cut hne _ (cut_of_not_mem hd), String.ofList_toList]
  | some k =>
    rw [headChars, parseHead?_of_cut hne _ (cut_append hd _), String.ofList_toList]
    simp only [number64?_digits, Option.map_some]
    rfl

theorem parsePlace?_placeChars (n : InstanceName) (id : UInt64) (line column : UInt32) :
    parsePlace? n (placeChars id line column) = some (n.located id line column) := by
  have hd : ∀ k, '$' ∉ digits k := not_mem_digits rfl
  unfold parsePlace? placeChars
  simp only [cut_append (hd _), number64?_digits, number32?_digits]
  rfl

/-- What follows the lead is what is parsed. -/
theorem parseChars?_lead (cs : List Char) :
    parseChars? (lead.toList ++ cs) = match cut '/' cs with
      | (head, none) => parseHead? head
      | (head, some []) => parseHead? head
      | (head, some place) => (parseHead? head).bind (parsePlace? · place) := by
  have hdrop : (lead.toList ++ cs).drop lead.toList.length = cs := List.drop_left
  refine (if_pos (List.isPrefixOf_iff_prefix.2 (List.prefix_append _ _))).trans ?_
  generalize (lead.toList ++ cs).drop lead.toList.length = rest at hdrop ⊢
  subst hdrop
  rfl

theorem parse?_text {n : InstanceName} (h : n.WellFormed) : parse? n.text = some n := by
  obtain ⟨p, sequence, compileId, line, column⟩ := n
  obtain ⟨hp, hplace⟩ := h
  dsimp only at hp
  have hslash := slash_not_mem_head hp sequence
  have hhead := parseHead?_headChars hp sequence
  unfold parse? text
  rw [String.toList_ofList]
  rcases hplace with ⟨hid, hline, hcolumn⟩ | ⟨hid, hline, hcolumn⟩
  · obtain ⟨id, rfl⟩ := Option.isSome_iff_exists.1 hid
    obtain ⟨line, rfl⟩ := Option.isSome_iff_exists.1 hline
    obtain ⟨column, rfl⟩ := Option.isSome_iff_exists.1 hcolumn
    have hplace := parsePlace?_placeChars { primitive := p, sequence } id line column
    obtain ⟨x, place, hx⟩ : ∃ x place, placeChars id line column = x :: place :=
      List.exists_cons_of_ne_nil (by simp [placeChars])
    rw [hx] at hplace
    rw [chars_located, parseChars?_lead, cut_append hslash, hx]
    simp only [hhead, Option.bind_some, hplace]
    rfl
  · cases hid
    cases hline
    cases hcolumn
    rw [chars_placeless, parseChars?_lead, cut_of_not_mem hslash]
    exact hhead

/-! ## What is read is well-formed -/

theorem parseHead?_eq_some {n : InstanceName} (h : parseHead? cs = some n) :
    n.primitive ≠ "" ∧ '$' ∉ n.primitive.toList ∧ (∀ x ∈ n.primitive.toList, x ∈ cs) ∧
      n.compileId = none ∧ n.line = none ∧ n.column = none := by
  obtain ⟨p, k, hcut, hd, hmem⟩ : ∃ p k, cut '$' cs = (p, k) ∧ '$' ∉ p ∧ ∀ x ∈ p, x ∈ cs := by
    rcases cut_cases '$' cs with ⟨hd, hcut⟩ | ⟨p, k, hd, rfl, hcut⟩
    · exact ⟨cs, none, hcut, hd, fun _ => id⟩
    · exact ⟨p, some k, hcut, hd, fun x => List.mem_append_left _⟩
  by_cases hp : p = []
  · rw [parseHead?, hcut, hp] at h
    cases h
  · obtain ⟨sequence, rfl⟩ : ∃ sequence, n = { primitive := String.ofList p, sequence } := by
      rw [parseHead?_of_cut hp k hcut] at h
      cases k with
      | none => exact ⟨none, (Option.some.inj h).symm⟩
      | some k =>
        obtain ⟨number, -, rfl⟩ := Option.map_eq_some_iff.1 h
        exact ⟨some number, rfl⟩
    have hne : String.ofList p ≠ "" := by
      rwa [← String.toList_eq_nil_iff.ne, String.toList_ofList]
    simp only [String.toList_ofList]
    exact ⟨hne, hd, hmem, trivial, trivial, trivial⟩

theorem parsePlace?_eq_some {n m : InstanceName} (h : parsePlace? n cs = some m) :
    ∃ id line column, m = n.located id line column := by
  unfold parsePlace? at h
  split at h
  · split at h
    · obtain ⟨id, -, h⟩ := Option.bind_eq_some_iff.1 h
      obtain ⟨line, -, h⟩ := Option.bind_eq_some_iff.1 h
      obtain ⟨column, -, h⟩ := Option.bind_eq_some_iff.1 h
      exact ⟨id, line, column, (Option.some.inj h).symm⟩
    · cases h
  · cases h

theorem wellFormed_of_parse? {s : String} {n : InstanceName} (h : parse? s = some n) :
    n.WellFormed := by
  -- the head has no slash, and so what is computed has none
  have hhead : ∀ {head : List Char} {m : InstanceName}, '/' ∉ head → parseHead? head = some m →
      m.WellFormed := by
    intro head m hslash hm
    obtain ⟨hne, hd, hmem, hid, hline, hcolumn⟩ := parseHead?_eq_some hm
    exact ⟨⟨hne, fun hx => hslash (hmem _ hx), hd⟩, .inr ⟨hid, hline, hcolumn⟩⟩
  unfold parse? parseChars? at h
  split at h
  · rcases cut_cases '/' (s.toList.drop lead.toList.length) with
      ⟨hslash, hcut⟩ | ⟨head, place, hslash, -, hcut⟩
    · rw [hcut] at h
      exact hhead hslash h
    · rw [hcut] at h
      cases place with
      | nil => exact hhead hslash h
      | cons x place =>
        obtain ⟨m, hm, h⟩ := Option.bind_eq_some_iff.1 h
        obtain ⟨id, line, column, rfl⟩ := parsePlace?_eq_some h
        exact ⟨(hhead hslash hm).primitive, .inl ⟨rfl, rfl, rfl⟩⟩
  · cases h

theorem parse?_eq_none_of_slashless {s : String} (h : '/' ∉ s.toList) : parse? s = none := by
  unfold parse? parseChars?
  refine if_neg fun hp => h ?_
  have hlead : '/' ∈ lead.toList := by decide
  exact (List.isPrefixOf_iff_prefix.1 hp).subset hlead

/-! ## Bare names -/

theorem bareName_text {n : InstanceName} (h : n.WellFormed) : bareName n.text = n.primitive := by
  rw [bareName, parse?_text h]

theorem bareName_of_slashless {s : String} (h : '/' ∉ s.toList) : bareName s = s := by
  rw [bareName, parse?_eq_none_of_slashless h]

theorem bareName_bareName (s : String) : bareName (bareName s) = bareName s := by
  cases h : parse? s with
  | none =>
    have hs : bareName s = s := by rw [bareName, h]
    rw [hs, hs]
  | some n =>
    have hs : bareName s = n.primitive := by rw [bareName, h]
    rw [hs]
    exact bareName_of_slashless (wellFormed_of_parse? h).primitive.2.1

/-- Well-formed names, and no others, are read back from their texts; texts spell
well-formed names only; and the name of what an instance computes is found in the
instance's name, which leaves nothing to be found in it. -/
theorem names_read_back :
    (∀ n : InstanceName, parse? n.text = some n ↔ n.WellFormed) ∧
    (∀ s n, parse? s = some n → n.WellFormed ∧ parse? n.text = some n) ∧
    (∀ s, bareName (bareName s) = bareName s) ∧
    ∀ s k, IsPart s → bareName (numbered s k).text = s := by
  refine ⟨fun n => ⟨wellFormed_of_parse?, parse?_text⟩, ?_, bareName_bareName, ?_⟩
  · intro s n h
    have hn := wellFormed_of_parse? h
    exact ⟨hn, parse?_text hn⟩
  · intro s k hs
    exact bareName_text ⟨hs, .inr ⟨rfl, rfl, rfl⟩⟩

/-- A sign, a leading zero and a slash at the end are read, but not written. -/
theorem signed_name_read_back :
    parse? "/arrayflow/pi$+04/" = some (numbered "pi" 4) ∧ (numbered "pi" 4).WellFormed ∧
      parse? (numbered "pi" 4).text = some (numbered "pi" 4) ∧
      IsPart "pi" ∧ bareName (numbered "pi" 4).text = "pi" := by
  obtain ⟨-, hread, -, hbare⟩ := names_read_back
  have h : parse? "/arrayflow/pi$+04/" = some (numbered "pi" 4) := by decide
  have hp : IsPart "pi" := by decide
  exact ⟨h, (hread _ _ h).1, (hread _ _ h).2, hp, hbare "pi" 4 hp⟩

/-! ## Numbers tell names apart -/

theorem chars_numbered (p : String) (k : UInt64) :
    (numbered p k).chars = (lead.toList ++ p.toList) ++ '$' :: digits k.toNat := by
  simp [chars, numbered]

/-- The texts of numbered names are equal only if the names are. What is after the last
`$` is the number, whatever comes before it. -/
theorem numbered_text_inj {p q : String} {k l : UInt64} :
    (numbered p k).text = (numbered q l).text ↔ p = q ∧ k = l := by
  constructor
  · intro h
    have hd : ∀ n, '$' ∉ (digits n).reverse := fun n hm =>
      not_mem_digits rfl n (List.mem_reverse.1 hm)
    have hchars : (numbered p k).chars = (numbered q l).chars := String.ofList_injective h
    rw [chars_numbered, chars_numbered] at hchars
    -- backwards, the last `$` is the first
    have hcut : ∀ front n, cut '$' (front ++ '$' :: digits n).reverse =
        ((digits n).reverse, some front.reverse) := by
      intro front n
      rw [List.reverse_append, List.reverse_cons, List.append_assoc, List.singleton_append]
      exact cut_append (hd n) _
    have hsame := congrArg (cut '$' ·.reverse) hchars
    simp only [hcut, Prod.mk.injEq, Option.some.injEq, List.reverse_inj] at hsame
    obtain ⟨hk, hp⟩ := hsame
    exact ⟨String.toList_inj.1 (List.append_cancel_left hp), UInt64.toNat_inj.1 (digits_inj hk)⟩
  · rintro ⟨rfl, rfl⟩
    rfl

end InstanceName

end ArrayGraph
