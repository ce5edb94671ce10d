import IdlBridge.Proofs.Collections
import IdlBridge.Proofs.Draft.Steady
import IdlBridge.Proofs.Idl.Constant

/-! # Properties of objects

    The message of an object has a field for each property, with the type that the property asks
    for, and one for the properties beyond the declared ones, if there may be any.  A property that
    is an object, a choice of texts, or an array of these brings a nested message or enumeration:
    what its own schema becomes, under the name that is the type of the field.

    All of these are added one after the other, and of those with one name the first stays.  So the
    field of a property can be missing only where an earlier field has its name, and its type means
    something else only where an earlier property has brought a declaration of that name.
-/

namespace IdlBridge

namespace Spec.Schema

open Draft.Conversion (part)

/-! ## Schemas of objects -/

/-- The data is the schema of an object. -/
structure IsObjectSchema (es : Value.Entries) : Prop where
  reference : (part es "$ref").isTruthy = false
  type : soleType? (part es "type") = some (.text "object")

/-- The properties of a schema, in the order in which they are written. -/
def propertiesOf (es : Value.Entries) : List (Draft.Name × Schema) :=
  match part es "properties" with
  | .map ps => ps.map fun e => (e.1, ofValue e.2)
  | _ => []

/-- There is nothing beyond the properties. -/
def IsClosed (es : Value.Entries) : Prop :=
  part es "additionalProperties" = .null ∨ part es "additionalProperties" = .bool false

theorem ofProperties_eq_map (ps : List (Value × Value)) :
    ofProperties ps = ps.map fun e => (e.1, ofValue e.2) := by
  induction ps with
  | nil => rw [ofProperties, List.map_nil]
  | cons e rest ih =>
    obtain ⟨name, v⟩ := e
    rw [ofProperties, ih, List.map_cons]

/-- What a mapping says of the properties that it does not name. -/
def additionalOf (es : Value.Entries) : Additional Schema :=
  match _ : Value.Entries.get? es (.text "additionalProperties") with
  | none | some .null | some (.bool false) => .closed
  | some (.map []) => .untyped
  | some (.map (e :: rest)) => .typed (ofEntries (e :: rest))
  | _ => .untyped

theorem additionalOf_eq_closed_iff (es : Value.Entries) :
    additionalOf es = .closed ↔ IsClosed es := by
  unfold additionalOf IsClosed part
  cases hget : Value.Entries.get? es (.text "additionalProperties") <;>
  · split <;> simp_all

/-- The schema of an object is misshapen if its properties are, else it has the properties. -/
theorem IsObjectSchema.ofValue_cases {es : Value.Entries} (h : IsObjectSchema es) :
    ofValue (.map es) = .misshapen ∨ ∃ additional,
      ofValue (.map es) = .object (propertiesOf es) additional ∧
        (additional = .closed ↔ IsClosed es) := by
  have hreference := h.reference
  have htype := h.type
  unfold part at hreference htype
  have hclosed := additionalOf_eq_closed_iff es
  rw [ofValue, ofEntries]
  simp only [hreference, htype, Bool.false_eq_true, if_false]
  rw [if_neg (by decide), if_pos (by decide)]
  unfold propertiesOf part
  split
  · next hnone =>
    -- Without properties the object has the additional ones only.
    refine Or.inr ⟨additionalOf es, ?_, hclosed⟩
    rw [hnone]
    rfl
  · next ps hps =>
    refine Or.inr ⟨additionalOf es, ?_, hclosed⟩
    rw [hps, ofProperties_eq_map]
    rfl
  · next v hmap hv =>
    -- Properties that are no mapping count as missing if they are falsy, else nothing is made of
    -- them.
    split
    · exact Or.inl rfl
    · refine Or.inr ⟨additionalOf es, ?_, hclosed⟩
      rw [hv]
      cases v with
      | map ps => exact absurd rfl (hmap ps)
      | _ => rfl

/-! ## What a property asks for -/

/-- The schema inside all arrays, and the name under which it is converted. -/
def innermost (name : Text) : Schema → Text × Schema
  | .array (some items) => items.innermost (name ++ "Item")
  | s => (name, s)

/-- The field of a property that has the schema. -/
def field (name : Draft.Name) : Schema → Draft.Field
  | .object _ _ => { name := .text (name.asText ++ "Field"), type := name.asText }
  | .array items =>
    { name, type := ((array items).typeName name.asText).getD [], repeated := true }
  | s => { name, type := (s.typeName name.asText).getD [] }

end Spec.Schema

namespace Draft

open Spec.Schema

/-- What a property brings besides its field of the type. -/
def Brought : Text × Spec.Schema → Text → Deposit → Prop
  | (t, .object ps additional), type, d =>
    type = t ∧ ∃ m, Converts (.object ps additional) (.text t) (.message m) ∧ m.name = .text t ∧
      d = { messages := [m] }
  | (t, .enumeration values), type, d =>
    type = Naming.camel t ∧ d = { enums := [Piece.enumeration t values] }
  | _, _, d => d = {}

theorem Makes.field_eq {s : Spec.Schema} {name : Name} {f : Field} {d : Deposit}
    (h : Makes s name (.field f) d) : f = s.field name ∧ s.typeName name.asText = some f.type := by
  generalize hpiece : Piece.field f = piece at h
  induction h generalizing f with
  | reference type name | scalar type name =>
    cases hpiece
    exact ⟨rfl, rfl⟩
  | enumeration values t =>
    cases hpiece
    exact ⟨rfl, rfl⟩
  | object _ _ => cases hpiece
  | @items items t g d h ih =>
    cases hpiece
    obtain ⟨-, htype⟩ := ih rfl
    have htype' : typeName t (.array (some items)) = some g.type := htype
    have hgetD : (typeName t (.array (some items))).getD [] = g.type := by
      rw [htype', Option.getD_some]
    exact ⟨by rw [Spec.Schema.field, ← hgetD]; rfl, htype'⟩
  | objects h =>
    cases hpiece
    cases h
    exact ⟨rfl, rfl⟩

theorem Makes.brought {s : Spec.Schema} {name : Name} {f : Field} {d : Deposit}
    (h : Makes s name (.field f) d) : Brought (s.innermost name.asText) f.type d := by
  generalize hpiece : Piece.field f = piece at h
  induction h generalizing f with
  | reference type name | scalar type name =>
    cases hpiece
    rfl
  | enumeration values t =>
    cases hpiece
    exact ⟨rfl, rfl⟩
  | object _ _ => cases hpiece
  | @items items t g d h ih =>
    cases hpiece
    exact ih (f := g) rfl
  | objects h =>
    cases hpiece
    cases h with
    | object hconverts hname => exact ⟨rfl, _, hconverts, hname, rfl⟩

theorem MakesProperty.field_eq {s : Spec.Schema} {name : Name} {r : Field × Deposit}
    (h : MakesProperty s name r) : r.1 = s.field name := by
  cases h with
  | field h => exact h.field_eq.1
  | message h =>
    cases h
    rfl

theorem MakesProperty.brought {s : Spec.Schema} {name : Name} {r : Field × Deposit}
    (h : MakesProperty s name r) :
    Brought (s.innermost name.asText) (s.field name).type r.2 := by
  rw [← h.field_eq]
  cases h with
  | field h => exact h.brought
  | message h =>
    cases h with
    | object hconverts hname => exact ⟨rfl, _, hconverts, hname, rfl⟩

/-! ## What is declared first -/

/-- The name of the nested message that a property brings. -/
def broughtMessage (e : Name × Spec.Schema) : Option Text :=
  match e.2.innermost e.1.asText with
  | (t, .object _ _) => some t
  | _ => none

/-- The name of the nested enumeration that a property brings. -/
def broughtEnum (e : Name × Spec.Schema) : Option Text :=
  match e.2.innermost e.1.asText with
  | (t, .enumeration _) => some (Naming.camel t)
  | _ => none

theorem Brought.messages {e : Name × Spec.Schema} {type : Text} {d : Deposit}
    (h : Brought (e.2.innermost e.1.asText) type d) :
    ∀ m ∈ d.messages, ∃ t, broughtMessage e = some t ∧ m.name = .text t := by
  unfold broughtMessage
  unfold Brought at h
  split at h
  · next hinner =>
    obtain ⟨-, m, -, hname, rfl⟩ := h
    rw [hinner]
    intro n hn
    rw [List.mem_singleton.1 hn]
    exact ⟨_, rfl, hname⟩
  · obtain ⟨-, rfl⟩ := h
    exact nofun
  · rw [h]
    exact nofun

theorem Brought.enums {e : Name × Spec.Schema} {type : Text} {d : Deposit}
    (h : Brought (e.2.innermost e.1.asText) type d) :
    ∀ x ∈ d.enums, broughtEnum e = some x.name := by
  unfold broughtEnum
  unfold Brought at h
  split at h
  · obtain ⟨-, m, -, -, rfl⟩ := h
    exact nofun
  · next hinner =>
    obtain ⟨-, rfl⟩ := h
    rw [hinner]
    intro x hx
    rw [List.mem_singleton.1 hx]
    rfl
  · rw [h]
    exact nofun

theorem addAllNew_nil {α : Type} (key : α → Name) (xs : List α) :
    addAllNew key [] xs = firstNamed key xs :=
  addAllNew_firstNamed key [] xs

/-- The first item of a name is the one that stays. -/
theorem mem_firstNamed_iff {α : Type} {key : α → Name} {before : List α} {x : α} {t : Text}
    (hx : key x = .text t) (hbefore : ∀ y ∈ before, key y ≠ .text t) (behind : List α) (y : α) :
    y ∈ firstNamed key (before ++ x :: behind) ∧ key y = .text t ↔ y = x := by
  have hmem : x ∈ firstNamed key (before ++ x :: behind) := by
    refine mem_firsts_append_cons (fun z hz => ?_) behind
    rw [hx, Bool.eq_false_iff]
    exact fun hsame => hbefore z hz (same_text.1 hsame)
  -- Whatever stays is the first item of its name, and there is one first item only.
  have hfind : ∀ z ∈ firstNamed key (before ++ x :: behind), key z = .text t →
      (before ++ x :: behind).find? (fun w => (key w).same (.text t)) = some z := by
    intro z hz ht
    have h := find?_of_mem_firsts hz
    simp only [ht, same_text] at h
    refine h trivial ?_
    rintro a w hsame hw
    rw [hw] at hsame
    exact same_text.1 hsame
  constructor
  · rintro ⟨hy, ht⟩
    have h := (hfind y hy ht).symm.trans (hfind x hmem hx)
    cases h
    rfl
  · rintro rfl
    exact ⟨hmem, hx⟩

/-! ## The message of an object -/

/-- The fields of the properties, in their order. -/
def propertyFields (es : Value.Entries) : List Field :=
  (propertiesOf es).map fun e => e.2.field e.1

/-- Before the property, none brings a message of the name. -/
def FirstMessage (before : List (Name × Spec.Schema)) (t : Text) : Prop :=
  ∀ e ∈ before, broughtMessage e ≠ some t

/-- Before the property, none brings an enumeration of the name. -/
def FirstEnum (before : List (Name × Spec.Schema)) (t : Text) : Prop :=
  ∀ e ∈ before, broughtEnum e ≠ some t

/-- The field of further properties has a name of its own. -/
theorem MakesAdditional.names {additional : Spec.Additional Spec.Schema} {name : Name}
    {extra : List (Field × Deposit)} (h : MakesAdditional additional name extra) :
    (additional = .closed → extra = []) ∧
      (additional ≠ .closed → extra.map (fun r => r.1.name) = [.text Piece.additionalField]) := by
  cases h with
  | closed => exact ⟨fun _ => rfl, fun h => absurd rfl h⟩
  | untyped | field | message => exact ⟨nofun, fun _ => rfl⟩

theorem converts_enumeration (t : Text) (values : List Text) :
    Converts (.enumeration values) (.text t) (.enum (Piece.enumeration t values)) := by
  intro p
  refine ⟨p, ?_, rfl⟩
  unfold Piece.ofSchema
  exact ends_bind.2 ⟨t, p, ends_pure.2 ⟨rfl, rfl⟩, ends_pure.2 ⟨rfl, rfl⟩⟩

section Made

variable {before : List (Name × Spec.Schema)} {made : List (Field × Deposit)} {t : Text}

theorem FirstMessage.ne_of_mem (h : FirstMessage before t)
    (hmade : List.Forall₂ (fun e => MakesProperty e.2 e.1) before made) :
    ∀ m ∈ made.flatMap (·.2.messages), m.name ≠ .text t := by
  induction hmade with
  | nil => exact nofun
  | @cons e r _ _ hproperty _ ih =>
    obtain ⟨he, hrest⟩ := List.forall_mem_cons.1 h
    rw [List.flatMap_cons]
    refine List.forall_mem_append.2 ⟨fun m hm hname => ?_, ih hrest⟩
    obtain ⟨u, hbrought, hname'⟩ := hproperty.brought.messages m hm
    rw [hname] at hname'
    cases hname'
    exact he hbrought

theorem FirstEnum.ne_of_mem (h : FirstEnum before t)
    (hmade : List.Forall₂ (fun e => MakesProperty e.2 e.1) before made) :
    ∀ x ∈ made.flatMap (·.2.enums), x.key ≠ .text t := by
  induction hmade with
  | nil => exact nofun
  | @cons e r _ _ hproperty _ ih =>
    obtain ⟨he, hrest⟩ := List.forall_mem_cons.1 h
    rw [List.flatMap_cons]
    refine List.forall_mem_append.2 ⟨fun x hx hname => ?_, ih hrest⟩
    have hbrought := hproperty.brought.enums x hx
    have hname' : x.name = t := by
      rw [Enum.key] at hname
      cases hname
      rfl
    exact he (hname' ▸ hbrought)

theorem map_fst_made (hmade : List.Forall₂ (fun e => MakesProperty e.2 e.1) before made) :
    made.map (·.1) = before.map fun e => e.2.field e.1 := by
  induction hmade with
  | nil => rfl
  | cons hproperty _ ih => rw [List.map_cons, List.map_cons, hproperty.field_eq, ih]

variable {e : Name × Spec.Schema} {behind : List (Name × Spec.Schema)}
  (hmade : List.Forall₂ (fun e => MakesProperty e.2 e.1) (before ++ e :: behind) made)
  (more : List (Field × Deposit))

include hmade

/-- The message of a property, if none comes before it, is the one of its name. -/
theorem message_of_property {ps : List (Name × Spec.Schema)}
    {additional : Spec.Additional Spec.Schema}
    (hinner : e.2.innermost e.1.asText = (t, .object ps additional)) :
    (e.2.field e.1).type = t ∧ (FirstMessage before t →
      ∃ n, Converts (.object ps additional) (.text t) (.message n) ∧
        ∀ n', n' ∈ firstNamed Message.name ((made ++ more).flatMap (·.2.messages)) ∧
          n'.name = .text t ↔ n' = n) := by
  obtain ⟨zs, r, ws, rfl, hzs, hproperty⟩ := exists_of_forall₂_append_cons hmade
  have hbrought := hproperty.brought
  rw [hinner] at hbrought
  obtain ⟨htype, n, hconverts, hname, hmessages⟩ := hbrought
  refine ⟨htype, fun hfirst => ⟨n, hconverts, fun n' => ?_⟩⟩
  -- The one message that the property brings stands behind those of the properties before it.
  rw [List.append_assoc, List.flatMap_append, List.cons_append, List.flatMap_cons, hmessages]
  exact mem_firstNamed_iff hname (hfirst.ne_of_mem hzs) _ n'

/-- The enumeration of a property, if none comes before it, is the one of its name. -/
theorem enum_of_property {values : List Text}
    (hinner : e.2.innermost e.1.asText = (t, .enumeration values)) :
    (e.2.field e.1).type = Naming.camel t ∧ (FirstEnum before (Naming.camel t) →
      ∃ x, Converts (.enumeration values) (.text t) (.enum x) ∧
        ∀ x', x' ∈ firstNamed Enum.key ((made ++ more).flatMap (·.2.enums)) ∧
          x'.key = .text (Naming.camel t) ↔ x' = x) := by
  obtain ⟨zs, r, ws, rfl, hzs, hproperty⟩ := exists_of_forall₂_append_cons hmade
  have hbrought := hproperty.brought
  rw [hinner] at hbrought
  obtain ⟨htype, henums⟩ := hbrought
  have hkey : (Piece.enumeration t values).key = .text (Naming.camel t) := rfl
  refine ⟨htype, fun hfirst => ⟨_, converts_enumeration t values, fun x' => ?_⟩⟩
  rw [List.append_assoc, List.flatMap_append, List.cons_append, List.flatMap_cons, henums]
  exact mem_firstNamed_iff hkey (hfirst.ne_of_mem hzs) _ x'

end Made

/-- The message of an object has a field for each property, of the type of the property, and one
    more unless the object is closed; of those with one name the first stays.  A property with a
    message or an enumeration of its own finds what its schema becomes under the type of its field,
    unless a property before it has brought one of that name. -/
theorem properties_of_object {es : Value.Entries} (hes : IsObjectSchema es) {name : Name}
    {parent : Option Message} {p q : Progress} {r : Piece × Option Message}
    (h : Ends (Piece.ofSchema (.ofValue (.map es)) name parent) p r q) :
    ∃ m extra, r = (.message m, parent) ∧ m.name = name ∧
      m.fields = firstNamed Field.name (propertyFields es ++ extra) ∧
      (Apart Field.name (propertyFields es ++ extra) → m.fields = propertyFields es ++ extra) ∧
      (IsClosed es → extra = []) ∧
      (¬ IsClosed es → extra.map Field.name = [.text Piece.additionalField]) ∧
      ∀ before e behind, propertiesOf es = before ++ e :: behind →
        (∀ t ps additional, e.2.innermost e.1.asText = (t, .object ps additional) →
          (e.2.field e.1).type = t ∧ (FirstMessage before t →
            ∃ n, Converts (.object ps additional) (.text t) (.message n) ∧
              ∀ n', n' ∈ m.messages ∧ n'.name = .text t ↔ n' = n)) ∧
        (∀ t values, e.2.innermost e.1.asText = (t, .enumeration values) →
          (e.2.field e.1).type = Naming.camel t ∧ (FirstEnum before (Naming.camel t) →
            ∃ x, Converts (.enumeration values) (.text t) (.enum x) ∧
              ∀ x', x' ∈ m.enums ∧ x'.key = .text (Naming.camel t) ↔ x' = x)) := by
  rcases hes.ofValue_cases with hvalue | ⟨additional, hvalue, hclosed⟩
  · rw [hvalue, Piece.ofSchema] at h
    exact absurd h ends_throw
  rw [hvalue, Piece.ofSchema_object] at h
  obtain ⟨r', u, hobject, h⟩ := ends_bind.1 h
  obtain ⟨rfl, rfl⟩ := ends_pure.1 h
  obtain ⟨-, made, more, hmade, hmore, rfl⟩ :=
    Piece.settles_object (propertiesOf es) additional name p _ _ hobject
  -- The additional properties make at most one field, and it comes last.
  have hfields : (made ++ more).map (·.1) = propertyFields es ++ more.map (·.1) := by
    rw [List.map_append, map_fst_made hmade, propertyFields]
  obtain ⟨hnone, hone⟩ := hmore.names
  refine ⟨_, more.map (·.1), rfl, ?_⟩
  simp only [Message.fill_eq, addAllNew_nil, hfields]
  refine ⟨trivial, trivial, firstNamed_eq_self, fun hes => ?_, fun hes => ?_, ?_⟩
  · rw [hnone (hclosed.2 hes), List.map_nil]
  · rw [← hone (mt hclosed.1 hes), List.map_map]
    rfl
  · intro before e behind hsplit
    rw [hsplit] at hmade
    exact ⟨fun t ps additional => message_of_property hmade more,
      fun t values => enum_of_property hmade more⟩

/-- The message that a conversion on its own has ended with. -/
def messageOf : Except ConvertError (Piece × Option Message) → Option Message
  | .ok (.message m, none) => some m
  | _ => none

/-- The message that a conversion ends with, where that can be evaluated. -/
theorem exists_message_of_any (x : Conversion (Piece × Option Message)) (p : Progress)
    (check : Message → Bool) (h : (messageOf (x.run.run p).1).any check = true) :
    ∃ m q, Ends x p (.message m, none) q ∧ check m = true := by
  unfold Ends
  rcases hrun : x.run.run p with ⟨r, q⟩
  rw [hrun] at h
  dsimp only at h
  unfold messageOf at h
  split at h
  · next m => exact ⟨m, q, rfl, h⟩
  · cases h

/-- The schema of an object without properties. -/
def objectSchema : Value := .map [(.text "type", .text "object")]

/-- The schema of a pet: a text, an object, an array of objects and a choice of texts, and whatever
    else there may be. -/
def petSchema : Value.Entries :=
  [(.text "type", .text "object"),
    (.text "properties", .map [
      (.text "name", .map [(.text "type", .text "string")]),
      (.text "owner", objectSchema),
      (.text "toys", .map [(.text "type", .text "array"), (.text "items", objectSchema)]),
      (.text "state", .map [(.text "type", .text "string"),
        (.text "enum", .list [.text "sold"])])]),
    (.text "additionalProperties", .bool true)]

theorem ofValue_objectSchema : ofValue objectSchema = .object [] .closed := by
  rw [objectSchema, ofValue, ofEntries]
  rfl

theorem properties_of_petSchema : IsObjectSchema petSchema ∧ ¬ IsClosed petSchema ∧
    ∃ m q, Ends (Piece.ofSchema (.ofValue (.map petSchema)) (.text "Pet") none)
        ⟨{ package := [] }, []⟩ (.message m, none) q ∧
      (m.fields.map fun f => f.name.asText) =
        [("name" : Text), "ownerField", "toys", "state", Piece.additionalField] ∧
      ∃ n, Converts (.object [] .closed) (.text "toysItem") (.message n) ∧
        ∀ n', n' ∈ m.messages ∧ n'.name = .text "toysItem" ↔ n' = n := by
  have hes : IsObjectSchema petSchema := ⟨rfl, rfl⟩
  have hopen : ¬ IsClosed petSchema := by
    rintro (h | h) <;> cases h
  obtain ⟨m, q, hends, -⟩ := exists_message_of_any
    (Piece.ofSchema (.ofValue (.map petSchema)) (.text "Pet") none) ⟨{ package := [] }, []⟩
    (fun _ => true) (by decide +kernel)
  obtain ⟨m', extra, hm, -, -, hfields, -, hextra, hproperty⟩ := properties_of_object hes hends
  cases hm
  refine ⟨hes, hopen, m, q, hends, ?_, ?_⟩
  · obtain ⟨f, rfl, hf⟩ : ∃ f, extra = [f] ∧ f.name = .text Piece.additionalField := by
      obtain ⟨f, rest, rfl, hf, hrest⟩ := List.map_eq_cons_iff.1 (hextra hopen)
      rw [List.map_eq_nil_iff.1 hrest]
      exact ⟨f, rfl, hf⟩
    -- No two fields share a name, so all of them stay.
    have hapart : Apart Field.name (propertyFields petSchema ++ [f]) := by
      refine List.pairwise_append.2 ⟨by decide +kernel, List.pairwise_singleton _ _, ?_⟩
      simp only [List.mem_singleton, forall_eq, hf]
      decide +kernel
    rw [hfields hapart, List.map_append, List.map_singleton, hf]
    decide +kernel
  · have harray : ofValue (.map [(.text "type", .text "array"), (.text "items", objectSchema)]) =
        .array (some (.object [] .closed)) := by
      rw [ofValue, ofEntries, ← ofValue_objectSchema]
      rfl
    have hinner : innermost "toys" (ofValue (.map [(.text "type", .text "array"),
        (.text "items", objectSchema)])) =
          (("toysItem" : Text), Spec.Schema.object [] .closed) := by
      rw [harray]
      rfl
    exact ((hproperty [_, _] _ [_] rfl).1 _ _ _ hinner).2 (by unfold FirstMessage; decide +kernel)

/-- The schema of a text. -/
def textSchema : Value := .map [(.text "type", .text "string")]

/-- The schema of an object with two properties. -/
def pairSchema (v w : Text) (s u : Value) : Value.Entries :=
  [(.text "type", .text "object"), (.text "properties", .map [(.text v, s), (.text w, u)])]

/-- The schema of a text that has to be the given one. -/
def choiceOf (t : Text) : Value :=
  .map [(.text "type", .text "string"), (.text "enum", .list [.text t])]

/-- Two properties have one field, as the field of an object goes by another name, and two choices
    whose names differ in a capital have one enumeration, which is that of the first. -/
theorem merged_pairSchemas :
    (IsObjectSchema (pairSchema "part" "partField" objectSchema textSchema) ∧
      IsClosed (pairSchema "part" "partField" objectSchema textSchema) ∧
      ∃ m q, Ends (Piece.ofSchema (.ofValue (.map (pairSchema "part" "partField" objectSchema
        textSchema))) (.text "Item") none) ⟨{ package := [] }, []⟩ (.message m, none) q ∧
        m.fields.length = 1) ∧
    IsObjectSchema (pairSchema "status" "Status" (choiceOf "on") (choiceOf "off")) ∧
      ∃ m q, Ends (Piece.ofSchema (.ofValue (.map (pairSchema "status" "Status" (choiceOf "on")
        (choiceOf "off")))) (.text "Item") none) ⟨{ package := [] }, []⟩ (.message m, none) q ∧
      (∃ f ∈ m.fields, f.name = .text "Status" ∧ f.type = "Status") ∧
      (∃ x ∈ m.enums, x.name = "Status") ∧
      ∀ x ∈ m.enums, ¬ Converts (ofValue (choiceOf "off")) (.text "Status") (.enum x) := by
  refine ⟨⟨⟨rfl, rfl⟩, Or.inl rfl, ?_⟩, ⟨rfl, rfl⟩, ?_⟩
  · obtain ⟨m, q, hends, hm⟩ := exists_message_of_any (Piece.ofSchema (.ofValue (.map
      (pairSchema "part" "partField" objectSchema textSchema))) (.text "Item") none)
      ⟨{ package := [] }, []⟩ (fun m => decide (m.fields.length = 1)) (by decide +kernel)
    exact ⟨m, q, hends, of_decide_eq_true hm⟩
  · obtain ⟨m, q, hends, hm⟩ := exists_message_of_any (Piece.ofSchema (.ofValue (.map
      (pairSchema "status" "Status" (choiceOf "on") (choiceOf "off")))) (.text "Item") none)
      ⟨{ package := [] }, []⟩
      (fun m =>
        (m.fields.any fun f => f.name.same (.text "Status") && decide (f.type = "Status")) &&
          ((m.enums.any fun x => decide (x.name = "Status")) &&
            m.enums.all fun x => decide (("STATUS_OFF" : Text) ∉ x.values.map EnumValue.name)))
      (by decide +kernel)
    obtain ⟨hfield, henum⟩ := Bool.and_eq_true_iff.1 hm
    obtain ⟨hnamed, hvalues⟩ := Bool.and_eq_true_iff.1 henum
    obtain ⟨f, hf, hname⟩ := List.any_eq_true.1 hfield
    obtain ⟨hname, htype⟩ := Bool.and_eq_true_iff.1 hname
    obtain ⟨x, hx, hxname⟩ := List.any_eq_true.1 hnamed
    refine ⟨m, q, hends, ⟨f, hf, same_text.1 hname, of_decide_eq_true htype⟩,
      ⟨x, hx, of_decide_eq_true hxname⟩, fun x hx hconverts => ?_⟩
    have hchoice : ofValue (choiceOf "off") = .enumeration ["off"] := by
      rw [choiceOf, ofValue, ofEntries]
      rfl
    rw [hchoice] at hconverts
    have heq := (converts_enumeration "Status" ["off"]).unique hconverts
    cases heq
    exact of_decide_eq_true (List.all_eq_true.1 hvalues _ hx) (by decide +kernel)

end Draft

end IdlBridge
