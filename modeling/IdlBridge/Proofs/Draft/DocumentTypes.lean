import IdlBridge.Proofs.Draft.Components
import IdlBridge.Proofs.Draft.OperationTypes
import IdlBridge.Proofs.Text

/-! # Types from documents

    A document is converted in an empty draft: first the component schemas, then the operations of
    all paths.  What is known of single schemas and operations adds up to two results about the
    draft.  Every type in it is accounted for (`accounted_of_ofDocument`), and every component
    schema is declared in it, so that a reference to one finds its declaration as long as both go by
    the same name (`declared_of_schemaReference`).
-/

namespace IdlBridge.Draft

variable {refs : List Text}

/-- The component schemas of a document. -/
def componentSchemas (doc : Value.Entries) : Value.Entries :=
  Spec.sectionEntries (Spec.sectionEntries doc "components") "schemas"

namespace Conversion

variable {p : Progress}

/-! ## Documents -/

theorem brings_addPathItem (choice : OptionChoice) (path : Value) {item : Value.Entries}
    (hitem : Cited refs (.map item)) (verbs : List Text) (hp : p.file.Accounted refs) :
    Brings (File.Accounted refs) (addPathItem choice path item verbs) p fun _ _ => True := by
  induction verbs generalizing p with
  | nil =>
    unfold addPathItem
    exact brings_pure hp trivial
  | cons verb rest ih =>
    unfold addPathItem
    have hpart := hitem.part verb
    split
    · exact ih hp
    · refine (brings_mapping hp _).bind ?_
      rintro operation q _ hq ⟨-, hmap⟩
      rw [hmap] at hpart
      exact (brings_addOperation choice path verb hpart hq).bind fun _ r _ hr _ => ih hr

theorem brings_addPaths (choice : OptionChoice) (paths : List (Value × Value))
    (hpaths : ∀ e ∈ paths, Cited refs e.2) (hp : p.file.Accounted refs) :
    Brings (File.Accounted refs) (addPaths choice paths) p fun _ _ => True := by
  induction paths generalizing p with
  | nil =>
    unfold addPaths
    exact brings_pure hp trivial
  | cons e rest ih =>
    obtain ⟨path, item⟩ := e
    obtain ⟨hitem, hrest⟩ := List.forall_mem_cons.1 hpaths
    unfold addPaths
    refine (brings_mapping hp item).bind ?_
    rintro es q _ hq ⟨-, rfl⟩
    exact (brings_addPathItem choice path hitem verbs hq).bind fun _ r _ hr _ => ih hrest hr

theorem brings_importIf (wanted : Bool) (path : Text) (hp : p.file.Accounted refs) :
    Brings (File.Accounted refs) (importIf wanted path) p fun _ _ => True := by
  unfold importIf
  split
  · have hext := File.extends_addImport p.file path
    exact (brings_update hext (hp.addImport path)).mono fun _ _ _ => trivial
  · exact brings_pure hp trivial

/-- The parts of a document that are read as mappings are its sections. -/
theorem brings_section (hp : p.file.Accounted refs) {doc : Value.Entries}
    (hdoc : Cited refs (.map doc)) (key : Text) :
    Brings (File.Accounted refs) (entries (part doc key)) p
      fun _ es => Cited refs (.map es) ∧ es = Spec.sectionEntries doc key := by
  have hpart := hdoc.part key
  refine (brings_entries hp _).mono ?_
  rintro f es ⟨-, h⟩
  unfold Spec.sectionEntries
  unfold part at h hpart
  -- A section that is missing counts as an empty one.
  cases hget : doc.get? (.text key) with
  | none =>
    rw [hget] at h
    rcases h with h | ⟨rfl, -⟩
    · cases h
    · exact ⟨cited_nil, rfl⟩
  | some v =>
    rw [hget, Option.getD_some] at h hpart
    rcases h with rfl | ⟨rfl, hmap⟩
    · exact ⟨hpart, rfl⟩
    · refine ⟨cited_nil, ?_⟩
      split
      · next fs hfs => exact absurd (Option.some.inj hfs) (hmap fs)
      · rfl

/-- Converting a document adds nothing to an accounted draft whose types are not accounted for, and
    it declares all component schemas. -/
theorem brings_addDocument (choice : OptionChoice) {doc : Value.Entries}
    (hdoc : Cited refs (.map doc)) (hp : p.file.Accounted refs) :
    Brings (File.Accounted refs) (addDocument choice (.map doc)) p fun f _ =>
      ∀ name schema, (.text name, schema) ∈ componentSchemas doc →
        f.DeclaresComponent name (.ofValue schema) := by
  unfold addDocument
  refine (brings_mapping hp (.map doc)).bind ?_
  rintro es q _ hq ⟨-, hes⟩
  cases hes
  refine (brings_section hq hdoc _).bind ?_
  rintro components r _ hr ⟨hcomponents, rfl⟩
  refine (brings_section hr hcomponents _).bind ?_
  rintro schemas u _ hu ⟨hschemas, rfl⟩
  refine (brings_addComponents _ (fun e he => hschemas.of_mem he) hu).bind ?_
  rintro - v _ hv hdeclared
  refine (brings_section hv hdoc _).bind ?_
  rintro paths w hext₁ hw ⟨hpaths, -⟩
  refine (brings_addPaths choice paths (fun e he => hpaths.of_mem he) hw).bind ?_
  rintro - x hext₂ hx -
  refine (brings_importIf _ _ hx).bind fun _ y hext₃ hy _ => ?_
  intro a z hends
  -- The components are declared first, and whatever is converted after them keeps them.
  obtain ⟨hext₄, hz, -⟩ := brings_importIf _ _ hy a z hends
  have hext := ((hext₁.trans hext₂).trans hext₃).trans hext₄
  exact ⟨hext₄, hz, fun name schema hmem => (hdeclared name schema hmem).mono hext⟩

theorem keeps_packageOf {I : Progress → Prop} (doc : Value) :
    Keeps I (packageOf doc) fun _ => True := by
  unfold packageOf
  refine keeps_bind (keeps_mapping doc) fun es _ => ?_
  refine keeps_bind (keeps_entries _) fun info _ => ?_
  dsimp only
  split
  · exact keeps_bind (keeps_textual _) fun _ _ => keeps_pure trivial
  · exact keeps_pure trivial

end Conversion

/-- The package is chosen before anything is added to the draft. -/
theorem Conversion.exists_start {choose : Conversion Text}
    (hchoose : ∀ I : Progress → Prop, Keeps I choose fun _ => True) {choice : OptionChoice}
    {doc : Value} {s q : Progress} (hs : s.file = { package := [] })
    (hends : Ends (do
      let package ← choose
      update fun f => { f with package }
      addDocument choice doc) s () q) :
    ∃ (name : Text) (p : Progress), p.file = { package := name } ∧
      Ends (addDocument choice doc) p () q := by
  obtain ⟨name, s', hname, hends⟩ := ends_bind.1 hends
  obtain ⟨_, p, hp, hends⟩ := ends_bind.1 hends
  have hkept := brings_of_keeps (I := fun _ => True) trivial hchoose name s' hname
  have hs' : s'.file = s.file := hkept.2.2.1
  rw [update, ends_modify] at hp
  refine ⟨name, p, ?_, hends⟩
  rw [hp, hs', hs]

/-- A draft of a document is what converting the document adds to an empty draft. -/
theorem ends_of_ofDocument {choice : OptionChoice} {package : Option Text} {doc : Value}
    {file : File} {notices : List Notice}
    (h : ofDocument choice package doc = (.ok file, notices)) :
    ∃ (name : Text) (p q : Progress), p.file = { package := name } ∧
      Ends (Conversion.addDocument choice doc) p () q ∧ q.file = file := by
  have hrun : ∀ {x : Conversion Unit} {s : Progress},
      ((x.run.run s).1.map fun _ => (x.run.run s).2.file, (x.run.run s).2.notices) =
        (.ok file, notices) → ∃ q, Ends x s () q ∧ q.file = file := by
    intro x s hx
    rcases hends : x.run.run s with ⟨e | u, q⟩
    · rw [hends] at hx
      cases hx
    · rw [hends] at hx
      cases hx
      exact ⟨q, hends, rfl⟩
  unfold ofDocument at h
  dsimp only at h
  cases package with
  | none =>
    obtain ⟨q, hq, hfile⟩ := hrun h
    have hkeeps := fun I => Conversion.keeps_packageOf (I := I) doc
    obtain ⟨name, p, hp, hends⟩ := Conversion.exists_start hkeeps rfl hq
    exact ⟨name, p, q, hp, hends, hfile⟩
  | some package =>
    obtain ⟨q, hq, hfile⟩ := hrun h
    obtain ⟨name, p, hp, hends⟩ := Conversion.exists_start (fun _ => keeps_pure trivial) rfl hq
    exact ⟨name, p, q, hp, hends, hfile⟩

/-- What converting a document brings about is there in the draft of the document. -/
theorem brought_of_ofDocument {choice : OptionChoice} {package : Option Text} {doc : Value}
    {file : File} {notices : List Notice}
    (h : ofDocument choice package doc = (.ok file, notices)) :
    ∃ es, doc = .map es ∧ file.Accounted (Spec.references doc) ∧
      ∀ name schema, (.text name, schema) ∈ componentSchemas es →
        file.DeclaresComponent name (.ofValue schema) := by
  obtain ⟨package', p, q, hp, hends, rfl⟩ := ends_of_ofDocument h
  have hstart : p.file.Accounted (Spec.references doc) := hp ▸ File.accounted_empty package'
  obtain ⟨es, s, hmapping, -⟩ := ends_bind.1 hends
  obtain ⟨-, -, -, rfl⟩ := Conversion.brings_mapping hstart doc es s hmapping
  have hdoc := Conversion.cited_references (.map es)
  obtain ⟨-, hfile, hdeclared⟩ := Conversion.brings_addDocument choice hdoc hstart () q hends
  exact ⟨es, rfl, hfile, hdeclared⟩

/-- Every type of a draft is accounted for by the document that the draft has been made from: a
    scalar, an import, a reference of the document, or a declaration that can be seen from where the
    type is mentioned. -/
theorem accounted_of_ofDocument {choice : OptionChoice} {package : Option Text} {doc : Value}
    {file : File} {notices : List Notice}
    (h : ofDocument choice package doc = (.ok file, notices)) :
    file.Accounted (Spec.references doc) := by
  obtain ⟨_, -, hfile, -⟩ := brought_of_ofDocument h
  exact hfile

/-- A document with an operation, and with components that are an object, an array of objects and an
    enumeration. -/
def herdDocument : Value.Entries :=
  [(.text "info", .map [(.text "title", .text "Herd")]),
    (.text "paths", .map [(.text "/pets", .map [(.text "get", .map [
      (.text "tags", .list [.text "Pets"]),
      (.text "operationId", .text "List"),
      (.text "parameters", .list [.map [(.text "name", .text "limit"), (.text "in", .text "query"),
        (.text "schema", .map [(.text "type", .text "integer")])]]),
      (.text "responses", .map [(.text "200", .map [(.text "content", .map [
        (.text "json", .map [(.text "schema", .map [
          (.text "$ref", .text "#/components/schemas/Herd")])])])])])])])]),
    (.text "components", .map [(.text "schemas", .map [
      (.text "Pet", .map [(.text "type", .text "object"), (.text "properties", .map [
        (.text "born", .map [(.text "type", .text "string"), (.text "format", .text "date")])])]),
      (.text "Herd", .map [(.text "type", .text "array"), (.text "items", .map [
        (.text "type", .text "object"), (.text "properties", .map [
          (.text "pet", .map [(.text "$ref", .text "#/components/schemas/Pet")])])])]),
      (.text "Status", .map [(.text "type", .text "string"),
        (.text "enum", .list [.text "sold"])])])])]

/-- There is a draft where one has been looked at. -/
theorem exists_draft_of_any {r : Except ConvertError File × List Notice} {check : File → Bool}
    (h : r.1.toOption.any check = true) :
    ∃ file notices, r = (.ok file, notices) ∧ check file = true := by
  obtain ⟨e | file, notices⟩ := r
  · cases h
  · exact ⟨file, notices, rfl, h⟩

/-- The draft of the document, which there is. -/
theorem exists_herdDraft : ∃ file notices,
    ofDocument {} none (.map herdDocument) = (.ok file, notices) ∧
      decide (file.messages.length = 5) = true :=
  exists_draft_of_any (by decide +kernel)

theorem accounted_herdDraft : ∃ file notices,
    ofDocument {} none (.map herdDocument) = (.ok file, notices) ∧ file.messages.length = 5 ∧
      file.Accounted (Spec.references (.map herdDocument)) := by
  obtain ⟨file, notices, h, hlength⟩ := exists_herdDraft
  exact ⟨file, notices, h, of_decide_eq_true hlength, accounted_of_ofDocument h⟩

/-! ## References to components -/

/-- A reference to a component schema. -/
def schemaReference (name : Text) : Value :=
  .map [(.text "$ref", .text ("#/components/schemas" ++ ('/' : CodePoint) :: name))]

theorem ofValue_schemaReference {name : Text} (h : ('/' : CodePoint) ∉ name) :
    Spec.Schema.ofValue (schemaReference name) = .reference name := by
  rw [schemaReference, Spec.Schema.ofValue, Spec.Schema.ofEntries]
  show Spec.Schema.reference (Text.afterLast '/' _) = _
  rw [Text.afterLast_append h]

/-- A field that refers to a component schema has a type that is declared at the top level, unless
    the schema is an enumeration whose name is not in camel case. -/
theorem declared_of_schemaReference {choice : OptionChoice} {package : Option Text}
    {doc : Value.Entries} {file : File} {notices : List Notice}
    (h : ofDocument choice package (.map doc) = (.ok file, notices)) {name : Text} {schema : Value}
    (hmem : (.text name, schema) ∈ componentSchemas doc) (hslash : ('/' : CodePoint) ∉ name)
    (hcamel : ∀ values, .ofValue schema = Spec.Schema.enumeration values →
      Naming.camel name = name)
    {field : Name} {parent holder : Option Message} {piece : Piece} {p q : Progress}
    (hfield : Ends (Piece.ofSchema (.ofValue (schemaReference name)) field parent) p
      (piece, holder) q) :
    ∃ fd, piece = .field fd ∧
      (.text fd.type ∈ file.messageNames ∨ .text fd.type ∈ file.enumNames) := by
  obtain ⟨es, hes, -, hdeclared⟩ := brought_of_ofDocument h
  cases hes
  have hname := hdeclared name schema hmem
  rw [ofValue_schemaReference hslash] at hfield
  unfold Piece.ofSchema at hfield
  obtain ⟨hpiece, -⟩ := ends_pure.1 hfield
  cases hpiece
  refine ⟨_, rfl, ?_⟩
  -- The field has the name as it stands; only an enumeration is declared under another one.
  cases hs : Spec.Schema.ofValue schema with
  | enumeration values =>
    rw [hs] at hname
    have hin : .text (Naming.camel name) ∈ file.enumNames := hname
    rw [hcamel values hs] at hin
    exact Or.inr hin
  | _ =>
    rw [hs] at hname
    exact Or.inl hname

/-- A field that refers to the enumeration of the herd document, converted by itself. -/
theorem declared_statusField : ∃ file notices fd,
    ofDocument {} none (.map herdDocument) = (.ok file, notices) ∧
      Ends (Piece.ofSchema (.ofValue (schemaReference "Status")) (.text "status") none)
        ⟨file, notices⟩ (.field fd, none) ⟨file, notices⟩ ∧
      (.text fd.type ∈ file.messageNames ∨ .text fd.type ∈ file.enumNames) := by
  obtain ⟨file, notices, h, -⟩ := exists_herdDraft
  have hfield : Ends (Piece.ofSchema (.ofValue (schemaReference "Status")) (.text "status") none)
      ⟨file, notices⟩ (.field { name := .text "status", type := "Status" }, none)
      ⟨file, notices⟩ := by
    rw [ofValue_schemaReference (by decide), Piece.ofSchema]
    exact ends_pure.2 ⟨rfl, rfl⟩
  have hmem : (.text "Status", .map [(.text "type", .text "string"),
      (.text "enum", .list [.text "sold"])]) ∈ componentSchemas herdDocument :=
    List.mem_cons_of_mem _ (List.mem_cons_of_mem _ List.mem_cons_self)
  obtain ⟨fd, hfd, hdeclared⟩ :=
    declared_of_schemaReference h hmem (by decide) (fun _ _ => by decide) hfield
  cases hfd
  exact ⟨file, notices, _, h, hfield, hdeclared⟩

/-- A document with a component that is an enumeration, and a field that refers to it. -/
def saleDocument : Value.Entries :=
  [(.text "openapi", .text "3.0.0"), (.text "info", .map [(.text "title", .text "Shop")]),
    (.text "paths", .map []),
    (.text "components", .map [(.text "schemas", .map [
      (.text "pet_status", .map [(.text "type", .text "string"),
        (.text "enum", .list [.text "sold"])]),
      (.text "Pet", .map [(.text "type", .text "object"), (.text "properties", .map [
        (.text "status", schemaReference "pet_status")])])])])]

/-- The enumeration is declared as `PetStatus`, and the field asks for `pet_status`. -/
theorem undeclared_saleStatus : ∃ file notices,
    Spec.inlineReferences saleDocument = .ok saleDocument ∧
      ofDocument {} none (.map saleDocument) = (.ok file, notices) ∧
      (∃ schema, (.text "pet_status", schema) ∈ componentSchemas saleDocument) ∧
      (∃ m ∈ file.messages, ∃ fd ∈ m.fields, fd.type = "pet_status") ∧
      .text "pet_status" ∉ file.messageNames ∧ .text "pet_status" ∉ file.enumNames := by
  -- Drafts cannot be compared, but what they declare and mention can be looked at.
  have hcheck : ((ofDocument {} none (.map saleDocument)).1.toOption.any fun f =>
      (f.messages.any fun m => m.fields.any fun fd => fd.type = "pet_status") &&
        !((f.messageNames ++ f.enumNames).any fun n => n.same (.text "pet_status"))) = true := by
    decide +kernel
  obtain ⟨file, notices, h, hfile⟩ := exists_draft_of_any hcheck
  obtain ⟨hfield, hnames⟩ := Bool.and_eq_true_iff.1 hfile
  have hmentioned : ∃ m ∈ file.messages, ∃ fd ∈ m.fields, fd.type = "pet_status" := by
    simpa only [List.any_eq_true, decide_eq_true_eq] using hfield
  have hundeclared : .text "pet_status" ∉ file.messageNames ++ file.enumNames := by
    rw [text_mem_names, Bool.not_eq_true, ← Bool.not_eq_true']
    exact hnames
  rw [List.mem_append, not_or] at hundeclared
  exact ⟨file, notices, rfl, h, ⟨_, List.mem_cons_self⟩, hmentioned, hundeclared⟩

end IdlBridge.Draft
