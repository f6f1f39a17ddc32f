import ArrayGraph.Registry
/-!
# Looking patterns up

A registry has its patterns in a list and their places in an index. The two are in step,
whatever is registered: `Registry.Indexed` says that the index leads from each name to the
place of the one pattern of that name, and from nothing else. So a name leads to the first
pattern that was registered under it, a signature to the first that lists it, and nothing
that is registered later changes that: `lookups_stay`.
-/

namespace ArrayGraph

variable {r r' : Registry} {p q : Pattern} {ps : List Pattern} {name signature : String}

/-- The index leads from each name to the place of its pattern, and from nothing else. -/
structure Registry.Indexed (r : Registry) : Prop where
  distinct : r.names.Nodup
  index : ∀ (name : String) (i : Nat), r.index[name]? = some i ↔
    ∃ p : Pattern, r.patterns[i]? = some p ∧ p.name = name

/-! ## One registration -/

theorem register_eq_ok : r.register p = .ok r' ↔ r.index.contains p.name = false ∧
    r' = { r with
      patterns := r.patterns.push p
      index := r.index.insert p.name r.patterns.size } := by
  unfold Registry.register
  cases h : r.index.contains p.name with
  | true => simp
  | false => simp [eq_comm]

theorem register_eq_error {e : Error} : r.register p = .error e ↔
    r.index.contains p.name = true ∧ e = .duplicatePattern p.name := by
  unfold Registry.register
  cases h : r.index.contains p.name with
  | true => simp [eq_comm]
  | false => simp

theorem names_register (h : r.register p = .ok r') : r'.names = r.names ++ [p.name] := by
  obtain ⟨-, rfl⟩ := register_eq_ok.1 h
  simp [Registry.names]

theorem getElem?_index_register (h : r.register p = .ok r') (name : String) :
    r'.index[name]? = if p.name = name then some r.patterns.size else r.index[name]? := by
  obtain ⟨-, rfl⟩ := register_eq_ok.1 h
  simp only [Std.HashMap.getElem?_insert, beq_iff_eq]

theorem getElem?_patterns_register (h : r.register p = .ok r') (i : Nat) :
    r'.patterns[i]? = if i = r.patterns.size then some p else r.patterns[i]? := by
  obtain ⟨-, rfl⟩ := register_eq_ok.1 h
  exact Array.getElem?_push

/-! ## Registries in step -/

namespace Registry

theorem mem_names : name ∈ r.names ↔ ∃ p ∈ r.patterns, p.name = name := by
  simp [names]

/-- A pattern that the index leads to is one of the registry's. -/
theorem mem_of_get? (h : r.get? name = some p) : p ∈ r.patterns := by
  obtain ⟨i, -, hi⟩ := Option.bind_eq_some_iff.1 h
  exact Array.mem_of_getElem? hi

theorem indexed_empty : empty.Indexed where
  distinct := List.nodup_nil
  index := by simp [empty]

theorem Indexed.contains_iff (h : r.Indexed) : r.index.contains name = true ↔ name ∈ r.names := by
  rw [Std.HashMap.contains_eq_isSome_getElem?, Option.isSome_iff_exists, mem_names]
  constructor
  · rintro ⟨i, hi⟩
    obtain ⟨p, hp, hn⟩ := (h.index name i).1 hi
    exact ⟨p, Array.mem_of_getElem? hp, hn⟩
  · rintro ⟨p, hp, hn⟩
    obtain ⟨i, hi⟩ := Array.mem_iff_getElem?.1 hp
    exact ⟨i, (h.index name i).2 ⟨p, hi, hn⟩⟩

theorem Indexed.lt_size (h : r.Indexed) {i : Nat} (hi : r.index[name]? = some i) : i < r.size := by
  obtain ⟨p, hp, -⟩ := (h.index name i).1 hi
  exact (Array.getElem?_eq_some_iff.1 hp).1

theorem Indexed.get?_eq_some_iff (h : r.Indexed) :
    r.get? name = some p ↔ p ∈ r.patterns ∧ p.name = name := by
  constructor
  · intro hp
    obtain ⟨i, hi, hget⟩ := Option.bind_eq_some_iff.1 hp
    obtain ⟨q, hq, hn⟩ := (h.index name i).1 hi
    cases hget.symm.trans hq
    exact ⟨mem_of_get? hp, hn⟩
  · rintro ⟨hp, hn⟩
    obtain ⟨i, hi⟩ := Array.mem_iff_getElem?.1 hp
    exact Option.bind_eq_some_iff.2 ⟨i, (h.index name i).2 ⟨p, hi, hn⟩, hi⟩

theorem Indexed.isSome_get?_iff (h : r.Indexed) : (r.get? name).isSome ↔ name ∈ r.names := by
  rw [Option.isSome_iff_exists, mem_names]
  exact exists_congr fun p => h.get?_eq_some_iff

theorem Indexed.register (h : r.Indexed) (hr : r.register p = .ok r') : r'.Indexed where
  distinct := by
    have hnew : p.name ∉ r.names := by
      rw [← h.contains_iff, (register_eq_ok.1 hr).1]
      exact Bool.false_ne_true
    rw [names_register hr, List.nodup_append]
    refine ⟨h.distinct, List.pairwise_singleton _ _, fun a ha b hb he => hnew ?_⟩
    rwa [← List.mem_singleton.1 hb, ← he]
  index name i := by
    have hold : ∀ q, r.patterns[i]? = some q → q.name ≠ p.name := by
      intro q hq he
      have hmem := h.contains_iff.2 (mem_names.2 ⟨q, Array.mem_of_getElem? hq, he⟩)
      rw [(register_eq_ok.1 hr).1] at hmem
      cases hmem
    rw [getElem?_index_register hr, getElem?_patterns_register hr]
    by_cases hi : i = r.patterns.size
    · -- the new place is that of the new name only
      have hout : r.patterns[i]? = none := Array.getElem?_eq_none (Nat.le_of_eq hi.symm)
      have hnot : r.index[name]? ≠ some i := by
        intro hin
        obtain ⟨q, hq, -⟩ := (h.index name i).1 hin
        rw [hout] at hq
        cases hq
      simp [hi ▸ hnot, hi]
    · rw [if_neg hi, ← h.index name i]
      split
      · rename_i hn
        refine iff_of_false (fun he => hi (Option.some.inj he).symm) fun hin => ?_
        obtain ⟨q, hq, hq'⟩ := (h.index name i).1 hin
        exact hold q hq (hq'.trans hn.symm)
      · exact Iff.rfl

/-! ## One registration after the other -/

theorem registerNew_of_ok (h : r.register p = .ok r') (ps : List Pattern) :
    r.registerNew (p :: ps) = r'.registerNew ps := by
  rw [registerNew, List.foldl_cons, h]
  rfl

theorem registerNew_of_error {e : Error} (h : r.register p = .error e) (ps : List Pattern) :
    r.registerNew (p :: ps) = r.registerNew ps := by
  rw [registerNew, List.foldl_cons, h]
  rfl

/-- What registering one pattern keeps, registering any number keeps. -/
theorem registerNew_induction {P : Registry → Prop}
    (step : ∀ r p r', P r → r.register p = .ok r' → P r') (h : P r) (ps : List Pattern) :
    P (r.registerNew ps) := by
  induction ps generalizing r with
  | nil => exact h
  | cons p ps ih =>
    cases hp : r.register p with
    | error e =>
      rw [registerNew_of_error hp]
      exact ih h
    | ok r' =>
      rw [registerNew_of_ok hp]
      exact ih (step r p r' h hp)

theorem Indexed.registerNew (h : r.Indexed) (ps : List Pattern) : (r.registerNew ps).Indexed :=
  registerNew_induction (fun _ _ _ => Indexed.register) h ps

theorem indexed_builtins : builtins.Indexed := indexed_empty.registerNew _

/-- A registry has no patterns but those that were registered. -/
theorem registerNew_patterns (h : q ∈ (r.registerNew ps).patterns) : q ∈ r.patterns ∨ q ∈ ps := by
  induction ps generalizing r with
  | nil => exact .inl h
  | cons p ps ih =>
    rw [List.mem_cons]
    cases hp : r.register p with
    | error e =>
      rw [registerNew_of_error hp] at h
      exact (ih h).imp_right .inr
    | ok r' =>
      rw [registerNew_of_ok hp] at h
      obtain ⟨-, rfl⟩ := register_eq_ok.1 hp
      rcases ih h with hq | hq
      · exact (Array.mem_push.1 hq).imp_right .inl
      · exact .inr (.inr hq)

theorem Indexed.mem_names_registerNew (h : r.Indexed) :
    name ∈ (r.registerNew ps).names ↔ name ∈ r.names ∨ ∃ p ∈ ps, p.name = name := by
  induction ps generalizing r with
  | nil => simp [Registry.registerNew]
  | cons p ps ih =>
    simp only [List.mem_cons, exists_eq_or_imp]
    cases hp : r.register p with
    | error e =>
      have htaken : p.name ∈ r.names := h.contains_iff.1 (register_eq_error.1 hp).1
      rw [registerNew_of_error hp, ih h]
      constructor
      · exact Or.imp_right .inr
      · rintro (hn | rfl | hn)
        · exact .inl hn
        · exact .inl htaken
        · exact .inr hn
    | ok r' =>
      rw [registerNew_of_ok hp, ih (h.register hp), names_register hp, List.mem_append,
        List.mem_singleton, or_assoc, eq_comm]

/-! ## What lookups give -/

/-- Registering a pattern leaves what the names that are there lead to. -/
theorem get?_register (h : r.Indexed) (hr : r.register p = .ok r') (name : String) :
    r'.get? name = (r.get? name).or (if p.name = name then some p else none) := by
  have h' := h.register hr
  cases hq : r.get? name with
  | some q =>
    obtain ⟨hq, hn⟩ := h.get?_eq_some_iff.1 hq
    obtain ⟨-, rfl⟩ := register_eq_ok.1 hr
    exact h'.get?_eq_some_iff.2 ⟨Array.mem_push.2 (.inl hq), hn⟩
  | none =>
    rw [Option.none_or]
    split
    · rename_i hn
      obtain ⟨-, rfl⟩ := register_eq_ok.1 hr
      exact h'.get?_eq_some_iff.2 ⟨Array.mem_push_self, hn⟩
    · rename_i hn
      rw [Option.eq_none_iff_forall_ne_some]
      intro q hq'
      obtain ⟨hmem, hqn⟩ := h'.get?_eq_some_iff.1 hq'
      obtain ⟨-, rfl⟩ := register_eq_ok.1 hr
      rcases Array.mem_push.1 hmem with hmem | rfl
      · rw [h.get?_eq_some_iff.2 ⟨hmem, hqn⟩] at hq
        cases hq
      · exact hn hqn

/-- A name leads to the first pattern that was registered under it. -/
theorem Indexed.get?_registerNew (h : r.Indexed) (ps : List Pattern) (name : String) :
    (r.registerNew ps).get? name = (r.get? name).or (ps.find? (·.name = name)) := by
  induction ps generalizing r with
  | nil => exact Option.or_none.symm
  | cons p ps ih =>
    rw [List.find?_cons]
    cases hp : r.register p with
    | error e =>
      rw [registerNew_of_error hp, ih h]
      by_cases hn : p.name = name
      · obtain ⟨q, hq⟩ : ∃ q, r.get? name = some q := by
          rw [← Option.isSome_iff_exists, h.isSome_get?_iff, ← hn, ← h.contains_iff]
          exact (register_eq_error.1 hp).1
        simp [hq]
      · simp [hn]
    | ok r' =>
      rw [registerNew_of_ok hp, ih (h.register hp), get?_register h hp, Option.or_assoc]
      by_cases hn : p.name = name <;> simp [hn]

theorem findBySignature?_register (hr : r.register p = .ok r') (signature : String) :
    r'.findBySignature? signature =
      (r.findBySignature? signature).or
        (if p.signatures.contains signature then some p else none) := by
  obtain ⟨-, rfl⟩ := register_eq_ok.1 hr
  exact Array.find?_push

theorem findBySignature?_registerNew (h : r.findBySignature? signature = some p)
    (ps : List Pattern) : (r.registerNew ps).findBySignature? signature = some p := by
  refine registerNew_induction (P := (·.findBySignature? signature = some p)) ?_ h ps
  intro r q r' h hr
  rw [findBySignature?_register hr, h, Option.some_or]

/-- A signature leads to the first pattern that lists it. -/
theorem findBySignature?_eq_some_iff : r.findBySignature? signature = some p ↔
    ∃ i : Nat, r.patterns[i]? = some p ∧ signature ∈ p.signatures ∧
      ∀ j < i, ∀ q : Pattern, r.patterns[j]? = some q → signature ∉ q.signatures := by
  rw [findBySignature?, Array.find?_eq_some_iff_getElem, List.contains_iff_mem]
  constructor
  · rintro ⟨hp, i, hi, he, hfirst⟩
    refine ⟨i, Array.getElem?_eq_some_iff.2 ⟨hi, he⟩, hp, fun j hj q hq => ?_⟩
    obtain ⟨hlt, rfl⟩ := Array.getElem?_eq_some_iff.1 hq
    simpa using hfirst j hj
  · rintro ⟨i, hi, hp, hfirst⟩
    obtain ⟨hlt, he⟩ := Array.getElem?_eq_some_iff.1 hi
    refine ⟨hp, i, hlt, he, fun j hj => ?_⟩
    simpa using hfirst j hj _ (Array.getElem?_eq_getElem (Nat.lt_trans hj hlt))

theorem find?_name (hd : (ps.map (·.name)).Nodup) (hp : p ∈ ps) :
    ps.find? (·.name = p.name) = some p := by
  induction ps with
  | nil => cases hp
  | cons q ps ih =>
    obtain ⟨hq, hd⟩ := List.nodup_cons.1 hd
    rcases List.mem_cons.1 hp with rfl | hp
    · simp
    · have hne : q.name ≠ p.name := fun he => hq (List.mem_map.2 ⟨p, hp, he.symm⟩)
      simpa [hne] using ih hd hp

/-- In a registry that was empty at first, a name leads to the first of its patterns. -/
theorem get?_registered (ps : List Pattern) (name : String) :
    (empty.registerNew ps).get? name = ps.find? (·.name = name) := by
  have hempty : empty.get? name = none := by simp [get?, empty]
  rw [indexed_empty.get?_registerNew, hempty, Option.none_or]

/-- A name that is registered once leads to its pattern. -/
theorem get?_of_names (hd : (ps.map (·.name)).Nodup) (hp : p ∈ ps) :
    (empty.registerNew ps).get? p.name = some p := by
  rw [get?_registered, find?_name hd hp]

end Registry

/-- Whatever is registered, one pattern after the other, with those that are refused among
them, the index and the list of patterns are in step. A name that is taken is refused and
nothing changes; any other leads to its pattern from then on. No later registration
changes what names, help and signatures lead to. -/
theorem lookups_stay {start r : Registry} {ps : List Pattern}
    (hs : start = .empty ∨ start = .builtins) (hr : start.registerNew ps = r) :
    r.Indexed ∧ (∀ (name : String) (i : Nat), r.index[name]? = some i → i < r.size) ∧
    (∀ name p, r.get? name = some p ↔ p ∈ r.patterns ∧ p.name = name) ∧
    (∀ name, (r.get? name).isSome ↔ name ∈ start.names ∨ ∃ p ∈ ps, p.name = name) ∧
    (∀ p, p.name ∈ r.names → r.register p = .error (.duplicatePattern p.name) ∧
      r.registerNew [p] = r) ∧
    (∀ p, p.name ∉ r.names → ∃ r', r.register p = .ok r' ∧ r.registerNew [p] = r' ∧
      r'.patterns = r.patterns.push p ∧ r'.get? p.name = some p) ∧
    (∀ qs name p, r.get? name = some p → (r.registerNew qs).get? name = some p) ∧
    (∀ qs name text, r.help? name = some text → (r.registerNew qs).help? name = some text) ∧
    (∀ qs signature p, r.findBySignature? signature = some p →
      (r.registerNew qs).findBySignature? signature = some p) ∧
    ∀ signature p, r.findBySignature? signature = some p ↔
      ∃ i : Nat, r.patterns[i]? = some p ∧ signature ∈ p.signatures ∧
        ∀ j < i, ∀ q : Pattern, r.patterns[j]? = some q → signature ∉ q.signatures := by
  have hstart : start.Indexed := by
    rcases hs with he | he <;> rw [he]
    · exact Registry.indexed_empty
    · exact Registry.indexed_builtins
  have h : r.Indexed := hr ▸ hstart.registerNew ps
  have hget : ∀ qs name p, r.get? name = some p → (r.registerNew qs).get? name = some p := by
    intro qs name p hp
    rw [h.get?_registerNew, hp, Option.some_or]
  refine ⟨h, fun name i => h.lt_size, fun name p => h.get?_eq_some_iff, ?_, ?_, ?_, hget, ?_,
    fun qs signature p hp => Registry.findBySignature?_registerNew hp qs,
    fun signature p => Registry.findBySignature?_eq_some_iff⟩
  · intro name
    rw [h.isSome_get?_iff, ← hr, hstart.mem_names_registerNew]
  · intro p hp
    have he : r.register p = .error (.duplicatePattern p.name) :=
      register_eq_error.2 ⟨h.contains_iff.2 hp, rfl⟩
    exact ⟨he, Registry.registerNew_of_error he []⟩
  · intro p hp
    have hnew : r.index.contains p.name = false := by
      rw [← Bool.not_eq_true, h.contains_iff]
      exact hp
    have hok := register_eq_ok.2 ⟨hnew, rfl⟩
    refine ⟨_, hok, Registry.registerNew_of_ok hok [], rfl, ?_⟩
    exact (h.register hok).get?_eq_some_iff.2 ⟨Array.mem_push_self, rfl⟩
  · intro qs name text ht
    obtain ⟨p, hp, ht⟩ := Option.bind_eq_some_iff.1 ht
    exact Option.bind_eq_some_iff.2 ⟨p, hget qs name p hp, ht⟩

/-- The patterns of variables, in a registry of their own. -/
def Registry.slots : Registry := empty.registerNew Pattern.slots

/-- Stores are found and stay what they are, and their name is not given away. -/
theorem slots_stay : Registry.slots.get? "store" = some Pattern.slots[1] ∧
    Registry.slots.register ⟨"store", ["put(_1)"], .block, none⟩ =
      .error (.duplicatePattern "store") ∧
    (Registry.slots.registerNew Pattern.control).get? "store" = some Pattern.slots[1] ∧
    (Registry.slots.registerNew Pattern.control).help? "store" = Pattern.slots[1].help := by
  obtain ⟨-, -, hget, -, htaken, -, hstay, hhelp, -, -⟩ :=
    lookups_stay (.inl rfl) (show Registry.empty.registerNew Pattern.slots = .slots from rfl)
  have hstore : Registry.slots.get? "store" = some Pattern.slots[1] :=
    Registry.get?_of_names (p := Pattern.slots[1]) (by decide) (by decide)
  have hname : "store" ∈ Registry.slots.names :=
    Registry.mem_names.2 ⟨_, (hget "store" _).1 hstore⟩
  have htext : Registry.slots.help? "store" = Pattern.slots[1].help := by
    rw [Registry.help?, hstore]
    rfl
  exact ⟨hstore, (htaken ⟨"store", ["put(_1)"], .block, none⟩ hname).1,
    hstay Pattern.control "store" _ hstore, hhelp Pattern.control "store" _ htext⟩

end ArrayGraph
