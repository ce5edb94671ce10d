import IdlBridge.Descriptor
import IdlBridge.Proofs.Table

/-! # Closed files

    A file is closed when nothing in it points out of it: the structs and enumerations that the
    types of its fields name are in its tables, and the structs that its methods take and return
    are entries of its table.  The tables are keyed by name, so a name leads to the struct that has
    it.

    `Within` says where the names of one type lie.  It is stated with two predicates instead of the
    tables because the tables are still growing while the types are resolved.
-/

namespace IdlBridge

namespace TypeDesc

/-- The names of the structs inside a type. -/
def structNames : TypeDesc → List Text
  | .struct name => [name]
  | .scalar _ | .enum _ => []
  | .list e | .set e => structNames e
  | .map k v => structNames k ++ structNames v

/-- The names of the enumerations inside a type. -/
def enumNames : TypeDesc → List Text
  | .enum name => [name]
  | .scalar _ | .struct _ => []
  | .list e | .set e => enumNames e
  | .map k v => enumNames k ++ enumNames v

/-- The structs inside a type satisfy `P`, its enumerations `Q`. -/
def Within (P Q : Text → Prop) (t : TypeDesc) : Prop :=
  (∀ n ∈ t.structNames, P n) ∧ ∀ n ∈ t.enumNames, Q n

variable {P Q : Text → Prop}

@[simp] theorem within_scalar (n : Text) : Within P Q (.scalar n) := by
  simp [Within, structNames, enumNames]

@[simp] theorem within_struct {n : Text} : Within P Q (.struct n) ↔ P n := by
  simp [Within, structNames, enumNames]

@[simp] theorem within_enum {n : Text} : Within P Q (.enum n) ↔ Q n := by
  simp [Within, structNames, enumNames]

@[simp] theorem within_list {e : TypeDesc} : Within P Q (.list e) ↔ Within P Q e := Iff.rfl

@[simp] theorem within_set {e : TypeDesc} : Within P Q (.set e) ↔ Within P Q e := Iff.rfl

@[simp] theorem within_map {k v : TypeDesc} :
    Within P Q (.map k v) ↔ Within P Q k ∧ Within P Q v := by
  simp only [Within, structNames, enumNames, List.mem_append, or_imp, forall_and]
  exact and_and_and_comm

end TypeDesc

namespace StructDesc

/-- An entry of a table of structs is keyed by the name of its struct, and the types of the fields
    lie within `P` and `Q`. -/
def EntryWithin (P Q : Text → Prop) (e : Text × StructDesc) : Prop :=
  e.2.name = e.1 ∧ ∀ d ∈ e.2.fields, d.type.Within P Q

end StructDesc

namespace FileDesc

/-- Nothing in the file points out of it. -/
structure Closed (f : FileDesc) : Prop where
  named : ∀ e ∈ f.structs, e.2.name = e.1
  structs : ∀ e ∈ f.structs, ∀ d ∈ e.2.fields, ∀ n ∈ d.type.structNames, f.structs.has n = true
  enums : ∀ e ∈ f.structs, ∀ d ∈ e.2.fields, ∀ n ∈ d.type.enumNames, f.enums.has n = true
  methods : ∀ s ∈ f.services, ∀ m ∈ s.methods, ∀ d, m.request = some d ∨ m.response = some d →
    f.structs.get? d.name = some d

/-- A file is closed when the entries of its table lie within its tables. -/
theorem closed_of_entries {f : FileDesc} {P Q : Text → Prop}
    (hentries : ∀ e ∈ f.structs, StructDesc.EntryWithin P Q e)
    (hP : ∀ n, P n → f.structs.has n = true) (hQ : ∀ n, Q n → f.enums.has n = true)
    (hmethods : ∀ s ∈ f.services, ∀ m ∈ s.methods, ∀ d, m.request = some d ∨ m.response = some d →
      f.structs.get? d.name = some d) : f.Closed where
  named := fun e he => (hentries e he).1
  structs := fun e he d hd n hn => hP n (((hentries e he).2 d hd).1 n hn)
  enums := fun e he d hd n hn => hQ n (((hentries e he).2 d hd).2 n hn)
  methods := hmethods

end FileDesc

end IdlBridge
