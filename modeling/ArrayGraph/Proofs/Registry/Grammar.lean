import ArrayGraph.Proofs.Registry.Name
import Mathlib.Data.Nat.Digits.Defs
/-!
# The grammar of instance names

What the reader of instance names accepts, stated as a grammar that does not cut, drop or
look ahead. A text spells a name if it is the lead, the name of what is computed, then a
number or nothing, then a place, a slash or nothing. The reader finds the name that is
spelled, and no other, since the separators are neither signs nor digits and each part
ends at the first separator after it.
-/

namespace ArrayGraph

namespace InstanceName

/-! ## The grammar -/

/-- The number that decimal digits stand for. The last digit is the one of the units. -/
def decimal (ds : List Char) : Nat := Nat.ofDigits 10 (ds.reverse.map (·.toNat - '0'.toNat))

/-- One or more decimal digits that stand for `k`, a number below `limit`. -/
structure Digits (limit : Nat) (ds : List Char) (k : Nat) : Prop where
  nonempty : ds ≠ []
  digits : ∀ c ∈ ds, c.isDigit = true
  value : decimal ds = k
  bound : k < limit

/-- Digits, which may have a plus sign before them. -/
inductive Numeral (limit : Nat) : List Char → Nat → Prop
  | unsigned {ds : List Char} {k : Nat} : Digits limit ds k → Numeral limit ds k
  | signed {ds : List Char} {k : Nat} : Digits limit ds k → Numeral limit ('+' :: ds) k

/-- What follows the name of what is computed: its number, or nothing. -/
inductive Sequenced : List Char → Option UInt64 → Prop
  | absent : Sequenced [] none
  | number {cs : List Char} {k : UInt64} :
      Numeral UInt64.size cs k.toNat → Sequenced ('$' :: cs) (some k)

/-- What ends a text: the place, or nothing, or a slash with nothing after it. -/
inductive Placed : List Char → Option UInt64 → Option UInt32 → Option UInt32 → Prop
  | absent : Placed [] none none none
  | slash : Placed ['/'] none none none
  | place {ids lines columns : List Char} {id : UInt64} {line column : UInt32} :
      Numeral UInt64.size ids id.toNat → Numeral UInt32.size lines line.toNat →
      Numeral UInt32.size columns column.toNat →
      Placed ('/' :: (ids ++ '$' :: (lines ++ '$' :: columns)))
        (some id) (some line) (some column)

/-- The text is one of the name. -/
def Spells (s : String) (n : InstanceName) : Prop :=
  IsPart n.primitive ∧ ∃ number place, Sequenced number n.sequence ∧
    Placed place n.compileId n.line n.column ∧
    s.toList = lead.toList ++ n.primitive.toList ++ number ++ place

variable {c : Char} {cs ds : List Char} {limit k : Nat} {n m : InstanceName}

/-! ## Numbers -/

theorem ofDigits_eq_decimal (ds : List Char) : ofDigits ds = decimal ds := by
  rw [decimal, Nat.ofDigits_eq_foldr, List.foldr_map, List.foldr_reverse]
  exact congrArg (fun f => ds.foldl f 0) (funext₂ fun _ _ => Nat.add_comm _ _)

theorem digits_iff : Digits limit ds k ↔
    (ds ≠ [] ∧ ds.all Char.isDigit ∧ ofDigits ds < limit) ∧ ofDigits ds = k := by
  rw [ofDigits_eq_decimal, List.all_eq_true]
  constructor
  · rintro ⟨hne, hd, rfl, hk⟩
    exact ⟨⟨hne, hd, hk⟩, rfl⟩
  · rintro ⟨⟨hne, hd, hk⟩, rfl⟩
    exact ⟨hne, hd, rfl, hk⟩

theorem Digits.not_mem (h : Digits limit ds k) (hc : c.isDigit = false) : c ∉ ds := by
  intro hm
  rw [h.digits c hm] at hc
  cases hc

theorem Numeral.not_mem (h : Numeral limit cs k) (hc : c.isDigit = false) (hp : c ≠ '+') :
    c ∉ cs := by
  cases h with
  | unsigned h => exact h.not_mem hc
  | signed h => exact List.not_mem_cons_of_ne_of_not_mem hp (h.not_mem hc)

/-- A numeral ends at the `$` after it. -/
theorem Numeral.cut (h : Numeral limit cs k) (ds : List Char) :
    cut '$' (cs ++ '$' :: ds) = (cs, some ds) :=
  cut_append (h.not_mem (by decide) (by decide)) ds

theorem number?_eq_some_iff : number? limit cs = some k ↔ Numeral limit cs k := by
  simp only [number?, Option.ite_none_right_eq_some, Option.some.injEq]
  rw [← digits_iff]
  constructor
  · intro h
    split at h
    · rename_i hp
      obtain ⟨ds, rfl⟩ := List.head?_eq_some_iff.1 hp
      exact .signed h
    · exact .unsigned h
  · intro h
    cases h with
    | unsigned h =>
      rw [if_neg fun hp => h.not_mem (by decide) (List.mem_of_head? hp)]
      exact h
    | signed h => exact h

theorem Numeral.bound (h : Numeral limit cs k) : k < limit := by
  cases h with
  | unsigned h => exact h.bound
  | signed h => exact h.bound

theorem number64?_eq_some_iff {k : UInt64} :
    number64? cs = some k ↔ Numeral UInt64.size cs k.toNat := by
  rw [number64?, ← number?_eq_some_iff, Option.map_eq_some_iff]
  constructor
  · rintro ⟨m, hm, rfl⟩
    rwa [UInt64.toNat_ofNat_of_lt' (number?_eq_some_iff.1 hm).bound]
  · intro h
    exact ⟨k.toNat, h, UInt64.ofNat_toNat⟩

theorem number32?_eq_some_iff {k : UInt32} :
    number32? cs = some k ↔ Numeral UInt32.size cs k.toNat := by
  rw [number32?, ← number?_eq_some_iff, Option.map_eq_some_iff]
  constructor
  · rintro ⟨m, hm, rfl⟩
    rwa [UInt32.toNat_ofNat_of_lt' (number?_eq_some_iff.1 hm).bound]
  · intro h
    exact ⟨k.toNat, h, UInt32.ofNat_toNat⟩

/-! ## The parts of a name -/

theorem Sequenced.slash_not_mem {sequence : Option UInt64} (h : Sequenced cs sequence) :
    '/' ∉ cs := by
  cases h with
  | absent => exact List.not_mem_nil
  | number h =>
    exact List.not_mem_cons_of_ne_of_not_mem (by decide) (h.not_mem (by decide) (by decide))

theorem isPart_ofList (hne : cs ≠ []) (hslash : '/' ∉ cs) (hd : '$' ∉ cs) :
    IsPart (String.ofList cs) := by
  rw [IsPart, ← String.toList_eq_nil_iff.ne, String.toList_ofList]
  exact ⟨hne, hslash, hd⟩

/-- What comes before the slash is the name of what is computed, and then its number. -/
theorem parseHead?_eq_some_iff (hslash : '/' ∉ cs) : parseHead? cs = some n ↔
    ∃ p number sequence, IsPart p ∧ Sequenced number sequence ∧ cs = p.toList ++ number ∧
      n = { primitive := p, sequence } := by
  constructor
  · intro h
    rcases cut_cases '$' cs with ⟨hd, hcut⟩ | ⟨p, k, hd, rfl, hcut⟩
    · have hne : cs ≠ [] := by
        rintro rfl
        cases h
      rw [parseHead?_of_cut hne _ hcut, Option.some.injEq] at h
      exact ⟨_, [], none, isPart_ofList hne hslash hd, .absent, by simp, h.symm⟩
    · have hne : p ≠ [] := by
        rintro rfl
        cases h
      rw [parseHead?_of_cut hne _ hcut, Option.map_eq_some_iff] at h
      obtain ⟨k', hk, rfl⟩ := h
      refine ⟨_, _, _, isPart_ofList hne ?_ hd, .number (number64?_eq_some_iff.1 hk), ?_, rfl⟩
      · exact fun hm => hslash (List.mem_append_left _ hm)
      · rw [String.toList_ofList]
  · rintro ⟨p, number, sequence, ⟨hne, -, hd⟩, hnumber, rfl, rfl⟩
    have hne : p.toList ≠ [] := String.toList_eq_nil_iff.not.2 hne
    cases hnumber with
    | absent =>
      rw [List.append_nil, parseHead?_of_cut hne _ (cut_of_not_mem hd), String.ofList_toList]
    | number h =>
      rw [parseHead?_of_cut hne _ (cut_append hd _), String.ofList_toList]
      exact Option.map_eq_some_iff.2 ⟨_, number64?_eq_some_iff.2 h, rfl⟩

/-- What comes after the slash, if anything does, is three numbers. -/
theorem parsePlace?_eq_some_iff : parsePlace? n cs = some m ↔
    ∃ id line column, Placed ('/' :: cs) (some id) (some line) (some column) ∧
      m = n.located id line column := by
  constructor
  · intro h
    rcases cut_cases '$' cs with ⟨-, hcut⟩ | ⟨ids, rest, -, rfl, hcut⟩
    · rw [parsePlace?, hcut] at h
      cases h
    rcases cut_cases '$' rest with ⟨-, hcut'⟩ | ⟨lines, columns, -, rfl, hcut'⟩
    · rw [parsePlace?, hcut] at h
      simp only [hcut'] at h
      cases h
    rw [parsePlace?, hcut] at h
    simp only [hcut'] at h
    obtain ⟨id, hid, h⟩ := Option.bind_eq_some_iff.1 h
    obtain ⟨line, hline, h⟩ := Option.bind_eq_some_iff.1 h
    obtain ⟨column, hcolumn, h⟩ := Option.bind_eq_some_iff.1 h
    exact ⟨id, line, column, .place (number64?_eq_some_iff.1 hid) (number32?_eq_some_iff.1 hline)
      (number32?_eq_some_iff.1 hcolumn), (Option.some.inj h).symm⟩
  · rintro ⟨id, line, column, hplace, rfl⟩
    cases hplace with
    | place hid hline hcolumn =>
      simp only [parsePlace?, hid.cut, hline.cut, number64?_eq_some_iff.2 hid,
        number32?_eq_some_iff.2 hline, number32?_eq_some_iff.2 hcolumn]
      rfl

/-! ## Whole names -/

theorem parseChars?_lead_eq_some_iff : parseChars? (lead.toList ++ cs) = some n ↔
    IsPart n.primitive ∧ ∃ number place, Sequenced number n.sequence ∧
      Placed place n.compileId n.line n.column ∧ cs = n.primitive.toList ++ number ++ place := by
  rw [parseChars?_lead]
  constructor
  · intro h
    rcases cut_cases '/' cs with ⟨hslash, hcut⟩ | ⟨head, place, hslash, rfl, hcut⟩
    · rw [hcut] at h
      obtain ⟨p, number, sequence, hp, hnumber, rfl, rfl⟩ := (parseHead?_eq_some_iff hslash).1 h
      exact ⟨hp, number, [], hnumber, .absent, (List.append_nil _).symm⟩
    · rw [hcut] at h
      cases place with
      | nil =>
        obtain ⟨p, number, sequence, hp, hnumber, rfl, rfl⟩ := (parseHead?_eq_some_iff hslash).1 h
        exact ⟨hp, number, _, hnumber, .slash, rfl⟩
      | cons x place =>
        obtain ⟨m, hm, h⟩ := Option.bind_eq_some_iff.1 h
        obtain ⟨p, number, sequence, hp, hnumber, rfl, rfl⟩ := (parseHead?_eq_some_iff hslash).1 hm
        obtain ⟨id, line, column, hplace, rfl⟩ := parsePlace?_eq_some_iff.1 h
        exact ⟨hp, number, _, hnumber, hplace, rfl⟩
  · obtain ⟨p, sequence, compileId, line, column⟩ := n
    rintro ⟨hp, number, place, hnumber, hplace, rfl⟩
    dsimp only at hp hnumber hplace ⊢
    have hslash : '/' ∉ p.toList ++ number :=
      List.not_mem_append hp.2.1 hnumber.slash_not_mem
    have hhead := (parseHead?_eq_some_iff hslash).2 ⟨p, number, sequence, hp, hnumber, rfl, rfl⟩
    cases hplace with
    | absent =>
      rw [List.append_nil, cut_of_not_mem hslash]
      exact hhead
    | slash =>
      rw [cut_append hslash]
      exact hhead
    | @place ids lines columns id line column hid hline hcolumn =>
      obtain ⟨x, rest, hx⟩ : ∃ x rest, ids ++ '$' :: (lines ++ '$' :: columns) = x :: rest :=
        List.exists_cons_of_ne_nil (List.append_ne_nil_of_right_ne_nil ids (List.cons_ne_nil _ _))
      have hplace := Placed.place hid hline hcolumn
      rw [hx] at hplace ⊢
      rw [cut_append hslash]
      exact Option.bind_eq_some_iff.2
        ⟨_, hhead, parsePlace?_eq_some_iff.2 ⟨id, line, column, hplace, rfl⟩⟩

theorem parse?_eq_some_iff {s : String} : parse? s = some n ↔ Spells s n := by
  constructor
  · intro h
    have hlead : lead.toList <+: s.toList := by
      by_contra hlead
      rw [parse?, parseChars?, if_neg (List.isPrefixOf_iff_prefix.not.2 hlead)] at h
      cases h
    obtain ⟨cs, hcs⟩ := hlead
    rw [parse?, ← hcs] at h
    obtain ⟨hp, number, place, hnumber, hplace, rfl⟩ := parseChars?_lead_eq_some_iff.1 h
    exact ⟨hp, number, place, hnumber, hplace, by simp [← hcs]⟩
  · rintro ⟨hp, number, place, hnumber, hplace, hs⟩
    rw [parse?, hs, List.append_assoc, List.append_assoc, parseChars?_lead_eq_some_iff]
    exact ⟨hp, number, place, hnumber, hplace, List.append_assoc _ _ _ |>.symm⟩

/-- The grammar is unambiguous. -/
theorem Spells.unique {s : String} (hn : Spells s n) (hm : Spells s m) : n = m := by
  rw [← parse?_eq_some_iff] at hn hm
  rw [hn, Option.some.injEq] at hm
  exact hm

/-- The names that are read are those that a text spells. If it spells one, what that name
computes is its bare name, and if it spells none, the text is. -/
theorem reads_what_is_spelled (s : String) :
    (∀ n, parse? s = some n ↔ Spells s n) ∧
      ((∃ n, Spells s n ∧ bareName s = n.primitive) ∨
        ((∀ n, ¬Spells s n) ∧ bareName s = s)) := by
  refine ⟨fun n => parse?_eq_some_iff, ?_⟩
  cases h : parse? s with
  | some n => exact .inl ⟨n, parse?_eq_some_iff.1 h, by rw [bareName, h]⟩
  | none =>
    refine .inr ⟨fun n hn => ?_, by rw [bareName, h]⟩
    rw [parse?_eq_some_iff.2 hn] at h
    cases h

example : parse? "/arrayflow/x$1/2$3" = none ∧
    bareName "/arrayflow/x$1/2$3" = "/arrayflow/x$1/2$3" := by decide

end InstanceName

end ArrayGraph
