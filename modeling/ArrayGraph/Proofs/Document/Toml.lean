import ArrayGraph.Proofs.Document.Field
/-!
# Configuration texts read back

What `Toml.print?` writes says what the outline does, without the fields that are absent:
`Toml.parse?` reads it back to `Toml.document` of the outline. Each line leads from one state
of the tables to another whatever follows it (`Reads`), so the lines of a text do so together.
-/

namespace ArrayGraph

namespace Toml

/-! ## Tables -/

namespace Members

variable {ms : Members} {key : String}

theorem ne_of_new (h : key ∉ ms.map Prod.fst) : ∀ m ∈ ms, (m.1 == key) = false := by
  intro m hm
  refine beq_eq_false_iff_ne.2 ?_
  rintro rfl
  exact h (List.mem_map_of_mem hm)

theorem any_key_of_new (h : key ∉ ms.map Prod.fst) : ms.any (·.1 == key) = false :=
  List.any_eq_false.2 fun m hm => Bool.eq_false_iff.1 (ne_of_new h m hm)

theorem lookup_of_new (h : key ∉ ms.map Prod.fst) : ms.lookup key = none :=
  List.lookup_eq_none_iff.2 fun m hm =>
    bne_iff_ne.2 (beq_eq_false_iff_ne.1 (ne_of_new h m hm)).symm

theorem insert?_new (h : key ∉ ms.map Prod.fst) (d : Document) :
    insert? ms [key] d = some (ms ++ [(key, .value d)]) := by
  rw [insert?, any_key_of_new h]
  rfl

theorem open?_new (h : key ∉ ms.map Prod.fst) :
    open? key ms = some (ms ++ [(key, .table .header [])]) := by
  rw [open?, lookup_of_new h]
  simp only [put, any_key_of_new h, Bool.false_eq_true, if_false]

/-- What is done in the last table is done in the whole. -/
theorem change?_last (h : key ∉ ms.map Prod.fst) (origin : Origin) {inner inner' : Members}
    {f : Members → Option Members} (hf : f inner = some inner') :
    change? (ms ++ [(key, .table origin inner)]) [key] f =
      some (ms ++ [(key, .table origin inner')]) := by
  have hlookup : (ms ++ [(key, Entry.table origin inner)]).lookup key =
      some (.table origin inner) := by
    rw [List.lookup_append, lookup_of_new h]
    simp
  have hput : put (ms ++ [(key, .table origin inner)]) key (.table origin inner') =
      ms ++ [(key, .table origin inner')] := by
    have hkept : ms.map (fun m => if m.1 == key then (key, .table origin inner') else m) = ms := by
      refine (List.map_congr_left fun m hm => ?_).trans (List.map_id ms)
      rw [ne_of_new h m hm]
      rfl
    rw [put, if_pos (by simp), List.map_append, hkept]
    simp
  rw [change?, hlookup]
  simp only [change?, hf, Option.map_some, hput]

end Members

/-! ## Lines -/

/-- The text leads from one state of the tables to another whatever follows it, and has no
mark of byte order in front. -/
structure Reads (p : Progress) (text : List Char) (p' : Progress) : Prop where
  unmarked : text.head? ≠ some '\ufeff'
  lines : ∀ fuel more, (text ++ more).length < fuel →
    ∃ left, more.length < left ∧ lines? fuel p (text ++ more) = lines? left p' more

variable {p p' p'' : Progress} {text text' : List Char}

theorem reads_nil (p : Progress) : Reads p [] p where
  unmarked := nofun
  lines fuel _ h := ⟨fuel, h, rfl⟩

theorem Reads.append (h : Reads p text p') (h' : Reads p' text' p'') :
    Reads p (text ++ text') p'' where
  unmarked := by
    cases text with
    | nil => exact h'.unmarked
    | cons c text => exact h.unmarked
  lines fuel more hfuel := by
    rw [List.append_assoc] at hfuel ⊢
    obtain ⟨left, hleft, he⟩ := h.lines fuel _ hfuel
    obtain ⟨left', hleft', he'⟩ := h'.lines left more hleft
    exact ⟨left', hleft', he.trans he'⟩

/-- One line is read in one step. -/
theorem reads_line (hmark : text.head? ≠ some '\ufeff') (hne : text ≠ [])
    (h : ∀ fuel more, lines? (fuel + 1) p (text ++ more) = lines? fuel p' more) :
    Reads p text p' where
  unmarked := hmark
  lines fuel more hfuel := by
    have hlen := List.length_pos_iff.2 hne
    rw [List.length_append] at hfuel
    obtain ⟨fuel, rfl⟩ : ∃ k, fuel = k + 1 := ⟨fuel - 1, by omega⟩
    exact ⟨fuel, by omega, h fuel more⟩

theorem reads_break (p : Progress) : Reads p ['\n'] p := reads_line nofun nofun fun _ _ => rfl

/-- A line that begins with a key is an assignment. -/
theorem lines?_bareKey {key : String} {cs more : List Char} (hkey : IsBareKey key)
    (h : assignment? p (key.toList ++ cs) = some (p', more)) (fuel : Nat) :
    lines? (fuel + 1) p (key.toList ++ cs) = lines? fuel p' more := by
  have hhead : ∀ {c cs'}, isBare c = false → key.toList ++ cs = c :: cs' → False :=
    fun hc => bareKey_append_ne hkey _ hc _
  have hcomment : ¬ ((key.toList ++ cs).head? = some '#' ∨
      (pastBreak? (key.toList ++ cs)).isSome = true) := by
    rintro (hc | hbreak)
    · obtain ⟨tail, he⟩ := List.head?_eq_some_iff.1 hc
      exact hhead rfl he
    · rw [pastBreak?.eq_3 _ (fun _ => hhead rfl) fun _ => hhead rfl] at hbreak
      cases hbreak
  rw [lines?.eq_2, skipBlanks_bareKey hkey]
  split
  · next he => exact absurd (List.append_eq_nil_iff.1 he).1 hkey.1
  · next he => exact (hhead rfl he).elim
  · rw [if_neg hcomment, h]

theorem reads_field {key : String} {written : List Char} {d : Document} {root : Members}
    (hkey : IsBareKey key) (hd : WritesValue written d)
    (hroot : Members.change? p.root p.current (Members.insert? · [key] d) = some root) :
    Reads p (key.toList ++ ' ' :: '=' :: ' ' :: (written ++ ['\n'])) { p with root } := by
  refine reads_line ?_ (by simp) fun fuel more => ?_
  · intro hmark
    obtain ⟨tail, he⟩ := List.head?_eq_some_iff.1 hmark
    exact bareKey_append_ne hkey _ rfl _ he
  · simp only [List.append_assoc, List.cons_append, List.nil_append]
    exact lines?_bareKey hkey (assignment?_field hkey hd hroot) fuel

/-- A header opens a table that is not there yet. -/
theorem reads_header {name : String} {ms : Members} {current : List String} (hname : IsBareKey name)
    (hnew : name ∉ ms.map Prod.fst) : Reads ⟨ms, current⟩ ('[' :: (name.toList ++ [']', '\n']))
      ⟨ms ++ [(name, .table .header [])], [name]⟩ := by
  refine reads_line nofun nofun fun fuel more => ?_
  have hkey : key? (name.toList ++ ']' :: '\n' :: more) = some ([name], ']' :: '\n' :: more) :=
    key?_bare hname rfl nofun
  have hheader : header? ⟨ms, current⟩ (name.toList ++ ']' :: '\n' :: more) =
      some (⟨ms ++ [(name, .table .header [])], [name]⟩, more) := by
    unfold header?
    split
    next twice cs he =>
    split at he
    · next he' => exact (bareKey_append_ne hname _ rfl _ he').elim
    · cases he
      simp only [hkey, List.getLast?_singleton, Bool.false_eq_true, if_false, past?, if_true,
        List.dropLast_singleton, Members.change?, Members.open?_new hnew, Option.bind_some]
      rfl
  have hskip : skipBlanks ('[' :: (name.toList ++ ']' :: '\n' :: more)) =
      '[' :: (name.toList ++ ']' :: '\n' :: more) := rfl
  simp only [List.cons_append, List.append_assoc, List.nil_append]
  rw [lines?.eq_2, hskip]
  simp only [hheader]

/-! ## Fields -/

/-- The tables with some members in the one that is open. -/
structure Filling (fill : Members → Progress) : Prop where
  insert : ∀ {ms key} d, key ∉ ms.map Prod.fst → ∃ root,
    Members.change? (fill ms).root (fill ms).current (Members.insert? · [key] d) = some root ∧
      fill (ms ++ [(key, .value d)]) = { fill ms with root }

theorem filling_top : Filling fun ms => ⟨ms, []⟩ where
  insert d hnew := ⟨_, Members.insert?_new hnew d, rfl⟩

theorem filling_section {name : String} {before : Members} (h : name ∉ before.map Prod.fst) :
    Filling fun ms => ⟨before ++ [(name, .table .header ms)], [name]⟩ where
  insert d hnew := ⟨_, Members.change?_last h .header (Members.insert?_new hnew d), rfl⟩

def fieldEntries (fields : List (String × OutlineField)) : Members :=
  fields.filterMap fun (key, f) => (fieldDocument? f).map fun d => (key, .value d)

theorem keys_fieldEntries (fields : List (String × OutlineField)) :
    ((fieldEntries fields).map Prod.fst).Sublist (fields.map Prod.fst) := by
  induction fields with
  | nil => exact List.Sublist.refl _
  | cons f fields ih =>
    obtain ⟨key, f⟩ := f
    cases hf : fieldDocument? f with
    | none =>
      simp only [fieldEntries, List.filterMap_cons, hf, Option.map_none, List.map_cons]
      exact ih.cons key
    | some d =>
      simp only [fieldEntries, List.filterMap_cons, hf, Option.map_some, List.map_cons]
      exact ih.cons_cons key

theorem reads_fields {fill : Members → Progress} (hfill : Filling fill)
    {fields : List (String × OutlineField)} {ms : Members} {lines : List (List Char)}
    (hkeys : ∀ f ∈ fields, IsBareKey f.1) (hnew : (ms.map Prod.fst ++ fields.map Prod.fst).Nodup)
    (h : fields.mapM printField? = some lines) :
    Reads (fill ms) lines.flatten (fill (ms ++ fieldEntries fields)) := by
  induction fields generalizing ms lines with
  | nil =>
    cases h
    rw [fieldEntries, List.filterMap_nil, List.append_nil]
    exact reads_nil _
  | cons f fields ih =>
    obtain ⟨key, f⟩ := f
    rw [List.forall_mem_cons] at hkeys
    rw [List.mapM_cons] at h
    simp only [Option.bind_eq_bind, Option.bind_eq_some_iff, Option.pure_def, Option.some.injEq] at h
    obtain ⟨text, htext, lines, hlines, rfl⟩ := h
    rw [List.flatten_cons]
    rcases printField?_eq_some htext with ⟨hf, rfl⟩ | ⟨d, written, hf, hd, rfl⟩
    · have hentries : fieldEntries ((key, f) :: fields) = fieldEntries fields := by
        simp [fieldEntries, hf]
      rw [hentries, List.nil_append]
      exact ih hkeys.2 (hnew.sublist (List.Sublist.append_left (List.sublist_cons_self ..) _)) hlines
    · have hentries : ms ++ fieldEntries ((key, f) :: fields) =
          ms ++ [(key, .value d)] ++ fieldEntries fields := by
        simp [fieldEntries, hf]
      have hnot : key ∉ ms.map Prod.fst := fun hm =>
        (List.nodup_append.1 hnew).2.2 _ hm _ List.mem_cons_self rfl
      obtain ⟨root, hroot, hnext⟩ := hfill.insert d hnot
      have hfirst := reads_field hkeys.1 hd hroot
      rw [← hnext] at hfirst
      rw [hentries]
      exact hfirst.append (ih hkeys.2 (by simpa using hnew) hlines)

/-! ## Sections -/

/-- The keys of an outline stand without quotes, and none is there twice. -/
structure Keyed (o : Outline) : Prop where
  fields : ∀ f ∈ o.fields, IsBareKey f.1
  sections : ∀ s ∈ o.sections, IsBareKey s.1 ∧ (∀ f ∈ s.2, IsBareKey f.1) ∧ (s.2.map Prod.fst).Nodup
  nodup : (o.fields.map Prod.fst ++ o.sections.map Prod.fst).Nodup

def sectionEntries (sections : List (String × List (String × OutlineField))) : Members :=
  sections.map fun (name, fields) => (name, .table .header (fieldEntries fields))

theorem reads_section {before text : List Char} {name : String}
    {fields : List (String × OutlineField)} {ms : Members} {current : List String}
    (hbefore : Reads p before ⟨ms, current⟩) (hname : IsBareKey name)
    (hkeys : ∀ f ∈ fields, IsBareKey f.1) (hnodup : (fields.map Prod.fst).Nodup)
    (hnew : name ∉ ms.map Prod.fst) (h : printSection? before name fields = some text) :
    Reads p text ⟨ms ++ [(name, .table .header (fieldEntries fields))], [name]⟩ := by
  simp only [printSection?, printFields?, Option.map_eq_some_iff] at h
  obtain ⟨_, ⟨lines, hlines, rfl⟩, rfl⟩ := h
  have hblank : Reads ⟨ms, current⟩ (if before.isEmpty then [] else ['\n']) ⟨ms, current⟩ := by
    split
    · exact reads_nil _
    · exact reads_break _
  have hbody : Reads ⟨ms ++ [(name, .table .header [])], [name]⟩ lines.flatten
      ⟨ms ++ [(name, .table .header (fieldEntries fields))], [name]⟩ :=
    reads_fields (filling_section hnew) hkeys hnodup hlines
  have hall := ((hbefore.append hblank).append (reads_header hname hnew)).append hbody
  simpa only [List.append_assoc, List.cons_append, List.nil_append] using hall

theorem reads_sections {sections : List (String × List (String × OutlineField))}
    {before text : List Char} {ms : Members} {current : List String}
    (hbefore : Reads p before ⟨ms, current⟩)
    (hsections : ∀ s ∈ sections,
      IsBareKey s.1 ∧ (∀ f ∈ s.2, IsBareKey f.1) ∧ (s.2.map Prod.fst).Nodup)
    (hnew : (ms.map Prod.fst ++ sections.map Prod.fst).Nodup)
    (h : sections.foldlM (fun before (name, fields) => printSection? before name fields) before =
      some text) : ∃ current', Reads p text ⟨ms ++ sectionEntries sections, current'⟩ := by
  induction sections generalizing before ms current with
  | nil =>
    cases h
    rw [sectionEntries, List.map_nil, List.append_nil]
    exact ⟨current, hbefore⟩
  | cons s sections ih =>
    obtain ⟨name, fields⟩ := s
    rw [List.forall_mem_cons] at hsections
    obtain ⟨⟨hname, hkeys, hnodup⟩, hsections⟩ := hsections
    rw [List.foldlM_cons, Option.bind_eq_bind, Option.bind_eq_some_iff] at h
    obtain ⟨first, hfirst, h⟩ := h
    have hnot : name ∉ ms.map Prod.fst := fun hm =>
      (List.nodup_append.1 hnew).2.2 _ hm _ List.mem_cons_self rfl
    have hread := reads_section hbefore hname hkeys hnodup hnot hfirst
    have hentries : ms ++ sectionEntries ((name, fields) :: sections) =
        ms ++ [(name, .table .header (fieldEntries fields))] ++ sectionEntries sections := by
      simp [sectionEntries]
    rw [hentries]
    exact ih hread hsections (by simpa using hnew) h

/-! ## Outlines -/

def fieldDocuments (fields : List (String × OutlineField)) : List (String × Document) :=
  fields.filterMap fun (key, f) => (fieldDocument? f).map (key, ·)

/-- What the text of an outline says: a field that is absent is left out. -/
def document (o : Outline) : Document :=
  .table (fieldDocuments o.fields ++ o.sections.map fun (key, fields) =>
    (key, .table (fieldDocuments fields)))

theorem documents_eq_map (ms : Members) :
    documents ms = ms.map fun m => (m.1, m.2.toDocument) := by
  induction ms with
  | nil => rfl
  | cons m ms ih => rw [documents, ih, List.map_cons]

theorem documents_fieldEntries (fields : List (String × OutlineField)) :
    documents (fieldEntries fields) = fieldDocuments fields := by
  rw [documents_eq_map, fieldEntries, fieldDocuments, List.map_filterMap]
  refine List.filterMap_congr fun (key, f) _ => ?_
  rw [Option.map_map]
  rfl

theorem documents_sectionEntries (sections : List (String × List (String × OutlineField))) :
    documents (sectionEntries sections) =
      sections.map fun (key, fields) => (key, .table (fieldDocuments fields)) := by
  rw [documents_eq_map, sectionEntries, List.map_map]
  refine List.map_congr_left fun (key, fields) _ => ?_
  exact congrArg (fun ds => (key, Document.table ds)) (documents_fieldEntries fields)

theorem skipByteOrderMark_of_unmarked {cs : List Char} (h : cs.head? ≠ some '\ufeff') :
    skipByteOrderMark cs = cs := by
  rw [skipByteOrderMark.eq_2]
  rintro rest rfl
  exact h rfl

/-- The text of an outline is read back. -/
theorem parse?_print? {o : Outline} {text : String} (ho : Keyed o) (h : print? o = some text) :
    parse? text = some (document o) := by
  simp only [print?, Option.bind_eq_bind, Option.bind_eq_some_iff, printFields?,
    Option.map_eq_some_iff, Option.pure_def, Option.some.injEq] at h
  obtain ⟨_, ⟨lines, hlines, rfl⟩, all, hall, rfl⟩ := h
  have htop : Reads ⟨[], []⟩ lines.flatten ⟨fieldEntries o.fields, []⟩ :=
    reads_fields filling_top ho.fields (List.nodup_append.1 ho.nodup).1 hlines
  have hnew := ho.nodup.sublist (List.Sublist.append_right (keys_fieldEntries o.fields) _)
  obtain ⟨current, hread⟩ := reads_sections htop ho.sections hnew hall
  obtain ⟨left, hleft, he⟩ := hread.lines (all.length + 1) [] (by simp)
  have hend : lines? left ⟨fieldEntries o.fields ++ sectionEntries o.sections, current⟩ [] =
      some (fieldEntries o.fields ++ sectionEntries o.sections) := by
    obtain ⟨left, rfl⟩ : ∃ k, left = k + 1 := ⟨left - 1, by omega⟩
    rfl
  rw [List.append_nil, hend] at he
  have hdocuments : documents (fieldEntries o.fields ++ sectionEntries o.sections) =
      documents (fieldEntries o.fields) ++ documents (sectionEntries o.sections) := by
    simp only [documents_eq_map, List.map_append]
  rw [parse?, String.toList_ofList, skipByteOrderMark_of_unmarked hread.unmarked, he,
    Option.map_some, hdocuments, documents_fieldEntries, documents_sectionEntries, document]

/-! ## Counts that do not fit -/

/-- All counts fit 64 bits with their sign. -/
def Fits (fields : List (String × OutlineField)) : Prop :=
  ∀ key n, (key, OutlineField.count n) ∈ fields → n < integerBound

end Toml

end ArrayGraph
