import IdlBridge.Proofs.Table
import IdlBridge.Proofs.Thrift.Grammar
import IdlBridge.Proofs.Thrift.Stages

/-! # Reading what the grammar spells

    Each parser reads every spelling of its declaration back.  Whether an optional part is there
    is decided by the next token, so each lemma says which tokens may follow: behind a field,
    whatever does not go on with it, which is the next field or the end of the list.  Types and
    constant values nest, and the induction carries the claim for every bound that is no smaller
    than the number of atoms.
-/

namespace IdlBridge.Thrift

open Idl

/-! ## What optional parts start with -/

theorem Annotations.Written.next {P : Kind Word → Prop} {us rest : List Atom} {notes : Annotations}
    (h : Annotations.Written notes us) (hparen : P (.delimiter .leftParen))
    (hrest : P (nextKind rest)) : P (nextKind (us ++ rest)) := by
  cases h with
  | absent => exact hrest
  | listed h => exact hparen

/-- A token that does not go on with what stands in front of it. -/
def Fresh (k : Kind Word) : Prop :=
  k ≠ .delimiter .leftParen ∧ k ≠ .delimiter .equals ∧ k ≠ .delimiter .comma ∧
    k ≠ .delimiter .semicolon

theorem fresh_of_isName {k : Kind Word} (h : k.isName = true) : Fresh k := by
  cases k with
  | delimiter d => cases h
  | _ => simp [Fresh]

/-- The atoms do not go on with a type. -/
structure TypeEnd (us : List Atom) : Prop where
  paren : nextKind us ≠ .delimiter .leftParen
  angle : nextKind us ≠ .delimiter .leftAngle
  cpp : ∀ u ∈ us.head?, ¬(u.kind = .ident ∧ u.value = "cpp_type")

theorem typeEnd_name {w : Text} (h : IsName w) (us : List Atom) : TypeEnd (.word w :: us) where
  paren := Parser.kind_word_ne w rfl
  angle := Parser.kind_word_ne w rfl
  cpp := by
    intro u hu
    cases hu
    exact fun hcpp => h.ne hcpp.2

theorem typeEnd_mark {d : Delimiter} (hparen : d ≠ .leftParen) (hangle : d ≠ .leftAngle)
    (us : List Atom) : TypeEnd (.mark d :: us) where
  paren := by simpa using hparen
  angle := by simpa using hangle
  cpp := by
    intro u hu
    cases hu
    simp

namespace Parser

open Idl.Parser

variable {us vs rest : List Atom}

theorem takes_bound : Takes bound us us (· = us.length + 1) :=
  fun s hs => ⟨_, s, rfl, by rw [hs.length_eq], hs⟩

/-- No comment stands behind a separator. -/
theorem takes_separator (h : Separator us) (hcomma : nextKind rest ≠ .delimiter .comma)
    (hsemicolon : nextKind rest ≠ .delimiter .semicolon) :
    Takes separator (us ++ rest) rest fun last => ∀ t ∈ last, t.trailing = [] := by
  -- Either mark ends the item, and the token has no comment behind it.
  have htake : ∀ d : Delimiter, d = .comma ∨ d = .semicolon →
      Takes separator (.mark d :: rest) rest fun last => ∀ t ∈ last, t.trailing = [] := by
    intro d hd
    refine takes_peek.bind ?_
    intro t ht
    apply takes_if_pos
    · rw [ht.kind]
      rcases hd with rfl | rfl
      · exact Or.inl rfl
      · exact Or.inr rfl
    · refine takes_advance.bind ?_
      intro t' ht'
      apply takes_pure
      intro last hlast
      cases hlast
      exact ht'.trailing
  cases h with
  | none =>
    refine takes_peek_kind.bind ?_
    intro t ht
    apply takes_if_neg
    · rw [ht]
      intro hkind
      exact hkind.elim hcomma hsemicolon
    · apply takes_pure
      intro last hlast
      cases hlast
  | comma => exact htake _ (Or.inl rfl)
  | semicolon => exact htake _ (Or.inr rfl)

/-! ## Constant values -/

theorem nextKind_constantValue (h : ConstantValue us) :
    nextKind us = .string ∨ nextKind us = .number ∨ nextKind us = .ident ∨
      nextKind us = .delimiter .leftBracket ∨ nextKind us = .delimiter .leftBrace := by
  cases h with
  | string t => simp
  | number t => simp
  | name h => simp [h.kind]
  | list _ _ => simp
  | map _ _ _ => simp

/-- A constant value starts with none of the delimiters that stand behind one. -/
theorem nextKind_constantValue_ne (h : ConstantValue us) (vs : List Atom) {d : Delimiter}
    (hbracket : d ≠ .leftBracket) (hbrace : d ≠ .leftBrace) :
    nextKind (us ++ vs) ≠ .delimiter d ∧ nextKind (us ++ vs) ≠ .eof := by
  have hstart := nextKind_constantValue h
  have hkind : nextKind (us ++ vs) = nextKind us := by
    apply nextKind_append
    intro heof
    rw [heof] at hstart
    simp at hstart
  rw [hkind]
  rcases hstart with h | h | h | h | h <;> rw [h]
  · simp
  · simp
  · simp
  · simpa using hbracket.symm
  · simpa using hbrace.symm

/-- What follows a value in a list or a map starts another one, or closes it. -/
def Unseparated (k : Kind Word) : Prop := k ≠ .delimiter .comma ∧ k ≠ .delimiter .semicolon

theorem takes_skipItems {skipValue : Parser Unit} {items : List Item}
    (hvalues : ∀ i ∈ items, ConstantValue i.value)
    (hseparators : ∀ i ∈ items, Separator i.separator)
    (hskip : ∀ i ∈ items, ∀ rest, Takes skipValue (i.value ++ rest) rest (· = ())) :
    Takes (skipItems skipValue) (items.flatMap Item.atoms ++ .mark .rightBracket :: rest) rest
      (· = ()) := by
  have heach : Each (fun i us => i ∈ items ∧ us = i.atoms) items (items.flatMap Item.atoms) :=
    Each.of_flatMap fun i hi => ⟨hi, rfl⟩
  refine (takes_each (F := Unseparated) heach (fun _ => ()) ?_ ?_ ?_).bind_eq (takes_delimiter _)
  · intro i u hu
    obtain ⟨hi, rfl⟩ := hu
    -- A value starts with no mark that could be taken for a separator, or for the end of the list.
    have hne := fun d => nextKind_constantValue_ne (hvalues i hi) i.separator (d := d)
    exact ⟨⟨(hne .comma (by simp) (by simp)).1, (hne .semicolon (by simp) (by simp)).1⟩,
      hne .rightBracket (by simp) (by simp)⟩
  · simp [Unseparated]
  · intro before i after _ u vs hu hvs
    obtain ⟨hi, rfl⟩ := hu
    rw [Item.atoms, List.append_assoc]
    refine (hskip i hi _).bind_eq ?_
    exact (takes_separator (hseparators i hi) hvs.1 hvs.2).bind fun _ _ => takes_pure rfl

theorem takes_skipEntries {skipValue : Parser Unit} {entries : List Entry}
    (hkeys : ∀ e ∈ entries, ConstantValue e.key)
    (hseparators : ∀ e ∈ entries, Separator e.separator)
    (hskipKey : ∀ e ∈ entries, ∀ rest, Takes skipValue (e.key ++ rest) rest (· = ()))
    (hskipValue : ∀ e ∈ entries, ∀ rest, Takes skipValue (e.value ++ rest) rest (· = ())) :
    Takes (skipEntries skipValue) (entries.flatMap Entry.atoms ++ .mark .rightBrace :: rest) rest
      (· = ()) := by
  have heach : Each (fun e us => e ∈ entries ∧ us = e.atoms) entries
      (entries.flatMap Entry.atoms) :=
    Each.of_flatMap fun e he => ⟨he, rfl⟩
  refine (takes_each (F := Unseparated) heach (fun _ => ()) ?_ ?_ ?_).bind_eq (takes_delimiter _)
  · intro e u hu
    obtain ⟨he, rfl⟩ := hu
    have hne := fun d =>
      nextKind_constantValue_ne (hkeys e he) (.mark .colon :: (e.value ++ e.separator)) (d := d)
    exact ⟨⟨(hne .comma (by simp) (by simp)).1, (hne .semicolon (by simp) (by simp)).1⟩,
      hne .rightBrace (by simp) (by simp)⟩
  · simp [Unseparated]
  · intro before e after _ u vs hu hvs
    obtain ⟨he, rfl⟩ := hu
    rw [Entry.atoms, List.append_assoc, List.cons_append, List.append_assoc]
    refine (hskipKey e he _).bind_eq ?_
    refine (takes_delimiter _).bind_eq ?_
    refine (hskipValue e he _).bind_eq ?_
    exact (takes_separator (hseparators e he) hvs.1 hvs.2).bind fun _ _ => takes_pure rfl

/-- Exactly the atoms of a constant value are skipped. -/
theorem takes_skipConstant (h : ConstantValue us) :
    ∀ {bound rest}, us.length ≤ bound → Takes (skipConstant bound) (us ++ rest) rest (· = ()) := by
  induction h with
  | string t =>
    intro bound rest hbound
    obtain ⟨bound, rfl⟩ := Nat.exists_eq_succ_of_ne_zero (Nat.ne_zero_of_lt hbound)
    refine takes_advance.bind ?_
    intro u hu
    rw [hu.kind]
    exact takes_pure rfl
  | number t =>
    intro bound rest hbound
    obtain ⟨bound, rfl⟩ := Nat.exists_eq_succ_of_ne_zero (Nat.ne_zero_of_lt hbound)
    refine takes_advance.bind ?_
    intro u hu
    rw [hu.kind]
    exact takes_pure rfl
  | name h =>
    intro bound rest hbound
    obtain ⟨bound, rfl⟩ := Nat.exists_eq_succ_of_ne_zero (Nat.ne_zero_of_lt hbound)
    refine takes_advance.bind ?_
    intro u hu
    rw [hu.kind, h.kind]
    exact takes_pure rfl
  | @list items hvalues hseparators ih =>
    intro bound rest hbound
    obtain ⟨bound, rfl⟩ := Nat.exists_eq_succ_of_ne_zero (Nat.ne_zero_of_lt hbound)
    rw [List.cons_append, List.append_assoc, List.singleton_append]
    refine takes_advance.bind ?_
    intro u hu
    rw [hu.kind]
    apply takes_skipItems hvalues hseparators
    intro i hi rest
    apply ih i hi
    -- The brackets leave enough of the bound for every item.
    have hlength : i.atoms.length ≤ (items.flatMap Item.atoms).length := length_le_flatMap hi
    rw [Item.atoms] at hlength
    simp only [List.length_cons, List.length_append] at hlength hbound
    omega
  | @map entries hkeys hvalues hseparators ihkeys ihvalues =>
    intro bound rest hbound
    obtain ⟨bound, rfl⟩ := Nat.exists_eq_succ_of_ne_zero (Nat.ne_zero_of_lt hbound)
    rw [List.cons_append, List.append_assoc, List.singleton_append]
    refine takes_advance.bind ?_
    intro u hu
    rw [hu.kind]
    have hlength : ∀ e ∈ entries, e.key.length ≤ bound ∧ e.value.length ≤ bound := by
      intro e he
      have hlength : e.atoms.length ≤ (entries.flatMap Entry.atoms).length := length_le_flatMap he
      rw [Entry.atoms] at hlength
      simp only [List.length_cons, List.length_append] at hlength hbound
      omega
    apply takes_skipEntries hkeys hseparators
    · intro e he rest
      exact ihkeys e he (hlength e he).1
    · intro e he rest
      exact ihvalues e he (hlength e he).2

theorem takes_skipDefault (h : Default us) (hrest : nextKind rest ≠ .delimiter .equals) :
    Takes skipDefault (us ++ rest) rest (· = ()) := by
  cases h with
  | none => exact (takes_accept_of_ne hrest).bind_eq (takes_pure rfl)
  | value h =>
    refine (takes_accept_delimiter .equals).bind_eq ?_
    refine takes_bound.bind_eq ?_
    exact takes_skipConstant h (by simp; omega)

/-! ## Annotations and types -/

theorem takes_annotation {pairs : Annotations} {note : Text × Text}
    (h : Annotation.Written note us) (hrest : Fresh (nextKind rest)) :
    Takes (annotationRound pairs) (us ++ rest) rest (· = pairs ++ [note]) := by
  obtain ⟨-, hequals, hcomma, hsemicolon⟩ := hrest
  cases h with
  | @bare key us hus =>
    have hnext : nextKind (us ++ rest) ≠ .delimiter .equals :=
      hus.next (P := (· ≠ .delimiter .equals)) (by simp) (by simp) hequals
    -- A key alone stands for a one.
    have hone : Takes annotationValue (us ++ rest) (us ++ rest) (· = "1") := by
      refine (takes_accept_of_ne hnext).bind_eq ?_
      exact takes_pure rfl
    refine (takes_name key).bind_eq ?_
    refine hone.bind_eq ?_
    exact (takes_separator hus hcomma hsemicolon).bind fun _ _ => takes_pure rfl
  | @valued key value us hvalue hus =>
    have hread : Takes (do return (← advance).value) (value :: (us ++ rest)) (us ++ rest)
        (· = value.value) := takes_advance.bind fun t ht => takes_pure ht.value
    have hgiven : Takes annotationValue (.mark .equals :: value :: (us ++ rest)) (us ++ rest)
        (· = value.value) := by
      refine (takes_accept_delimiter .equals).bind_eq ?_
      refine takes_peek.bind ?_
      intro t ht
      rw [ht.kind]
      rcases hvalue with hkind | hkind | hkind <;> rw [hkind] <;> exact hread
    refine (takes_name key).bind_eq ?_
    refine hgiven.bind_eq ?_
    exact (takes_separator hus hcomma hsemicolon).bind fun _ _ => takes_pure rfl

theorem takes_annotations {notes : Annotations} (h : Annotations.Written notes us)
    (hrest : nextKind rest ≠ .delimiter .leftParen) :
    Takes annotations (us ++ rest) rest (· = notes) := by
  cases h with
  | absent => exact (takes_accept_of_ne hrest).bind_eq (takes_pure rfl)
  | listed h =>
    rw [List.cons_append, List.append_assoc, List.singleton_append]
    refine (takes_accept_delimiter .leftParen).bind_eq ?_
    refine (takes_each (F := Fresh) h id ?_ ?_ ?_).bind_eq
      ((takes_delimiter .rightParen).bind_eq (takes_pure rfl))
    · intro note u hu
      have hname : (nextKind u).isName = true := by
        cases hu with
        | bare key _ => exact isName_word key
        | valued key _ _ _ => exact isName_word key
      refine ⟨fresh_of_isName hname, ?_, ?_⟩
      · intro hkind
        rw [hkind] at hname
        cases hname
      · intro hkind
        rw [hkind] at hname
        cases hname
    · simp [Fresh]
    · intro before note after _ u vs hu hvs
      exact takes_annotation hu hvs

/-- What stands behind the name of a type and its element types. -/
theorem takes_typeRefRest {name : Text} {args : List TypeRef} {notes : Annotations}
    {cpp : List Atom}
    (hcpp : CppType cpp) (hnotes : Annotations.Written notes us) (hrest : TypeEnd rest) :
    Takes (typeRefRest name args) (cpp ++ (us ++ rest)) rest (· = ⟨name, args, notes⟩) := by
  have hend : Takes (do return (⟨name, args, ← annotations⟩ : TypeRef)) (us ++ rest) rest
      (· = ⟨name, args, notes⟩) :=
    (takes_annotations hnotes hrest.paren).bind_eq (takes_pure rfl)
  cases hcpp with
  | none =>
    -- Without the word, neither the annotations nor what is behind starts with it.
    have hhead : ∀ u ∈ (us ++ rest).head?, ¬(u.kind = .ident ∧ u.value = "cpp_type") := by
      cases hnotes with
      | absent => exact hrest.cpp
      | listed _ => simp
    refine (takes_peek_of_head (P := fun k t => ¬(k = .ident ∧ t = "cpp_type")) hhead
      (by simp)).bind ?_
    intro t ht
    exact takes_if_neg ht hend
  | named text =>
    refine takes_peek.bind ?_
    intro t ht
    have hkind : t.kind = .ident := ht.kind.trans (by decide)
    apply takes_if_pos ⟨hkind, ht.value⟩
    refine takes_advance.bind ?_
    intro _ _
    exact (takes_string text).bind_eq hend

theorem isContainer_list_set {name : Text} (h : name = "list" ∨ name = "set") :
    isContainer name = true ∧ name ≠ "map" := by
  rcases h with rfl | rfl <;> decide

theorem takes_typeRef {type : TypeRef} (h : type.Written us) :
    ∀ {bound rest}, us.length ≤ bound → TypeEnd rest →
      Takes (typeRef bound) (us ++ rest) rest (· = type) := by
  induction h with
  | @named name notes cpp us hname hcpp hnotes =>
    intro bound rest hbound hrest
    obtain ⟨bound, rfl⟩ := Nat.exists_eq_succ_of_ne_zero (Nat.ne_zero_of_lt hbound)
    rw [List.cons_append, List.append_assoc]
    refine (takes_name name).bind_eq ?_
    -- What stands behind a plain name does not start with the mark of element types.
    have hangle : nextKind (cpp ++ (us ++ rest)) ≠ .delimiter .leftAngle := by
      cases hcpp with
      | none => exact hnotes.next (P := (· ≠ .delimiter .leftAngle)) (by simp) hrest.angle
      | named _ => exact kind_word_ne _ rfl
    refine (takes_nextIs _).bind_eq ?_
    apply takes_if_neg (by simp [hangle])
    exact takes_typeRefRest hcpp hnotes hrest
  | @element name type notes ts cpp us hname htype hcpp hnotes ih =>
    intro bound rest hbound hrest
    obtain ⟨bound, rfl⟩ := Nat.exists_eq_succ_of_ne_zero (Nat.ne_zero_of_lt hbound)
    obtain ⟨hcontainer, hmap⟩ := isContainer_list_set hname
    simp only [List.cons_append, List.append_assoc]
    simp only [List.length_cons, List.length_append] at hbound
    have hargs : Takes (elementTypes name (typeRef bound))
        (.mark .leftAngle :: (ts ++ .mark .rightAngle :: (cpp ++ (us ++ rest))))
        (cpp ++ (us ++ rest)) (· = [type]) := by
      refine (takes_delimiter .leftAngle).bind_eq ?_
      refine (ih (by omega) (typeEnd_mark (by simp) (by simp) _)).bind_eq ?_
      apply takes_if_neg hmap
      exact (takes_delimiter .rightAngle).bind_eq (takes_pure rfl)
    refine (takes_name name).bind_eq ?_
    refine (takes_nextIs _).bind_eq ?_
    apply takes_if_pos (by simp [hcontainer])
    exact hargs.bind_eq (takes_typeRefRest hcpp hnotes hrest)
  | @entry key value notes ks vs cpp us hkey hvalue hcpp hnotes ihkey ihvalue =>
    intro bound rest hbound hrest
    obtain ⟨bound, rfl⟩ := Nat.exists_eq_succ_of_ne_zero (Nat.ne_zero_of_lt hbound)
    simp only [List.cons_append, List.append_assoc]
    simp only [List.length_cons, List.length_append] at hbound
    have hargs : Takes (elementTypes "map" (typeRef bound))
        (.mark .leftAngle ::
          (ks ++ .mark .comma :: (vs ++ .mark .rightAngle :: (cpp ++ (us ++ rest)))))
        (cpp ++ (us ++ rest)) (· = [key, value]) := by
      refine (takes_delimiter .leftAngle).bind_eq ?_
      refine (ihkey (by omega) (typeEnd_mark (by simp) (by simp) _)).bind_eq ?_
      apply takes_if_pos rfl
      refine (takes_delimiter .comma).bind_eq ?_
      refine (ihvalue (by omega) (typeEnd_mark (by simp) (by simp) _)).bind_eq ?_
      exact (takes_delimiter .rightAngle).bind_eq (takes_pure rfl)
    refine (takes_name "map").bind_eq ?_
    refine (takes_nextIs _).bind_eq ?_
    apply takes_if_pos (by simp [isContainer])
    exact hargs.bind_eq (takes_typeRefRest hcpp hnotes hrest)

/-! ## Fields -/

theorem takes_mark (r : Requiredness) (hrequired : nextKind rest ≠ .keyword .required)
    (hoptional : nextKind rest ≠ .keyword .optional) :
    Takes mark (r.atoms ++ rest) rest (· = r) := by
  cases r with
  | unmarked =>
    refine takes_peek_kind.bind ?_
    intro t ht
    rw [Requiredness.atoms, List.nil_append] at ht
    split
    · next hkind => exact absurd (ht.symm.trans hkind) hrequired
    · next hkind => exact absurd (ht.symm.trans hkind) hoptional
    · exact takes_pure rfl
  | required =>
    refine takes_peek.bind ?_
    intro t ht
    rw [ht.kind]
    exact takes_advance.bind fun _ _ => takes_pure rfl
  | optional =>
    refine takes_peek.bind ?_
    intro t ht
    rw [ht.kind]
    exact takes_advance.bind fun _ _ => takes_pure rfl

/-- A type starts with its name. -/
theorem nextKind_type {type : TypeRef} (h : type.Written us) (vs : List Atom) :
    nextKind (us ++ vs) = .ident := by
  cases h with
  | named hname _ _ => exact hname.ident.kind
  | element hname _ _ _ =>
    apply IsIdent.kind
    rcases hname with rfl | rfl <;> decide
  | entry _ _ _ _ =>
    apply IsIdent.kind
    decide

/-- The mark and the type of a field start with a name. -/
theorem isName_marked {r : Requiredness} {type : TypeRef} (h : type.Written us) (vs : List Atom) :
    (nextKind (r.atoms ++ (us ++ vs))).isName = true := by
  cases r with
  | unmarked =>
    show (nextKind (us ++ vs)).isName = true
    rw [nextKind_type h]
    rfl
  | required => rfl
  | optional => rfl

theorem nextKind_field {f : Field} (h : f.Written us) (vs : List Atom) :
    nextKind (us ++ vs) = .number ∨ (nextKind (us ++ vs)).isName = true := by
  cases h with
  | @mk id type value notes behind hid htype _ _ _ _ _ =>
    obtain ⟨fieldName, fieldType, number, requiredness, fieldNotes, comment⟩ := f
    simp only [List.append_assoc]
    cases hid with
    | none => exact Or.inr (isName_marked htype _)
    | literal _ => exact Or.inl rfl

/-- What stands behind the number of a field does not depend on it. -/
theorem takes_fieldRest {first : Token} (hfirst : first.comment = []) {f : Field}
    {type value notes behind : List Atom} (htype : f.type.Written type) (hname : IsName f.name)
    (hvalue : Default value) (hnotes : Annotations.Written f.annotations notes)
    (hbehind : Separator behind) (hcomment : f.comment = []) (hrest : Fresh (nextKind rest)) :
    Takes (fieldRest first f.id)
      (f.requiredness.atoms ++ (type ++ .word f.name :: (value ++ (notes ++ (behind ++ rest)))))
      rest (· = f) := by
  obtain ⟨hparen, hequals, hcomma, hsemicolon⟩ := hrest
  obtain ⟨fieldName, fieldType, id, requiredness, fieldNotes, comment⟩ := f
  cases hcomment
  have htypeKind := nextKind_type htype (.word fieldName :: (value ++ (notes ++ (behind ++ rest))))
  refine (takes_mark requiredness (by simp [htypeKind]) (by simp [htypeKind])).bind_eq ?_
  refine takes_bound.bind_eq ?_
  refine (takes_typeRef htype (by simp; omega) (typeEnd_name hname _)).bind_eq ?_
  refine (takes_name fieldName).bind_eq ?_
  refine (takes_skipDefault hvalue ?_).bind_eq ?_
  · apply hnotes.next (P := (· ≠ .delimiter .equals)) (by simp)
    exact hbehind.next (P := (· ≠ .delimiter .equals)) (by simp) (by simp) hequals
  refine (takes_annotations hnotes ?_).bind_eq ?_
  · exact hbehind.next (P := (· ≠ .delimiter .leftParen)) (by simp) (by simp) hparen
  refine takes_get.bind ?_
  intro s hs
  refine (takes_separator hbehind hcomma hsemicolon).bind ?_
  intro last hlast
  -- The field ends with its separator, or else with the token before it; neither has a comment.
  have htrailing : (last.getD s.last).trailing = [] := by
    cases last with
    | none => exact hs.last
    | some t => exact hlast t rfl
  apply takes_pure
  simp only [hfirst, htrailing, ite_self]

theorem takes_field {f : Field} (h : f.Written us) (hrest : Fresh (nextKind rest)) :
    Takes field (us ++ rest) rest (· = f) := by
  have hstart := nextKind_field h rest
  have hne : nextKind (us ++ rest) ≠ .eof := by
    intro heof
    rw [heof] at hstart
    simp [Kind.isName] at hstart
  rw [field_eq]
  refine (takes_peek_of_ne hne).bind ?_
  intro first hfirst
  cases h with
  | @mk id type value notes behind hid htype hname hvalue hnotes hbehind hcomment =>
    have hend := takes_fieldRest hfirst.2 htype hname hvalue hnotes hbehind hcomment hrest
    simp only [List.append_assoc, List.cons_append] at hfirst ⊢
    -- Only what stands in front of the rest depends on the number.
    generalize f.id = number at hid hend
    cases hid with
    | none =>
      apply takes_if_neg ?_ hend
      rw [hfirst.1]
      intro hkind
      have hmarked := isName_marked (r := f.requiredness) htype
        (.word f.name :: (value ++ (notes ++ (behind ++ rest))))
      rw [List.nil_append] at hkind
      rw [hkind] at hmarked
      cases hmarked
    | @literal i t hliteral =>
      apply takes_if_pos hfirst.1
      refine takes_advance.bind ?_
      intro number hnumber
      have hint : Numeral.intLiteral? number.value = some i := by
        rw [hnumber.value]
        exact hliteral
      refine (takes_intOf hint).bind_eq ?_
      exact (takes_delimiter .colon).bind_eq hend

theorem takes_fieldsUntil {d : Delimiter} {fields : List Field} (h : Each Field.Written fields us)
    (hd : Fresh (.delimiter d)) :
    Takes (fieldsUntil d) (us ++ .mark d :: rest) rest (· = fields) := by
  refine (takes_each (F := Fresh) h id ?_ hd ?_).bind_eq
    ((takes_delimiter d).bind_eq (takes_pure rfl))
  · intro f u hu
    have hstart := nextKind_field hu []
    rw [List.append_nil] at hstart
    rcases hstart with hkind | hname
    · rw [hkind]
      simp [Fresh]
    · refine ⟨fresh_of_isName hname, ?_, ?_⟩
      · intro hkind
        rw [hkind] at hname
        cases hname
      · intro hkind
        rw [hkind] at hname
        cases hname
  · intro before f after _ u vs hu hvs
    exact (takes_field hu hvs).bind_eq (takes_pure rfl)

/-! ## Declarations -/

theorem takes_accept_keyword (k : Word) :
    Takes (accept (.keyword k)) (.keyword k :: rest) rest (· = true) :=
  takes_accept rfl

theorem takes_keyword (k : Word) : Takes (keyword k) (.keyword k :: rest) rest (·.comment = []) :=
  (takes_expect rfl).mono fun _ ht => ht.comment

/-- One value of an enumeration. -/
theorem takes_enumValue {next : Int} {v : EnumValue} {before : List EnumValue}
    {dropped : Annotations} {number notes : List Atom} (hnumber : EnumNumber next v.value number)
    (hnotes : Annotations.Written dropped notes) (hus : Separator us)
    (hrest : Fresh (nextKind rest)) :
    Takes (enumValueRound before next) (.word v.name :: (number ++ (notes ++ (us ++ rest)))) rest
      (· = (before ++ [v], v.value + 1)) := by
  obtain ⟨hparen, hequals, hcomma, hsemicolon⟩ := hrest
  obtain ⟨valueName, value⟩ := v
  have hend : Takes (enumValueRest before valueName value) (notes ++ (us ++ rest)) rest
      (· = (before ++ [⟨valueName, value⟩], value + 1)) := by
    refine (takes_annotations hnotes ?_).bind_eq ?_
    · exact hus.next (P := (· ≠ .delimiter .leftParen)) (by simp) (by simp) hparen
    exact (takes_separator hus hcomma hsemicolon).bind fun _ _ => takes_pure rfl
  refine (takes_name valueName).bind_eq ?_
  cases hnumber with
  | next =>
    refine (takes_accept_of_ne ?_).bind_eq ?_
    · apply hnotes.next (P := (· ≠ .delimiter .equals)) (by simp)
      exact hus.next (P := (· ≠ .delimiter .equals)) (by simp) (by simp) hequals
    · exact hend
  | @literal i t hliteral =>
    refine (takes_accept_delimiter .equals).bind_eq ?_
    refine (takes_expect (u := .number t) rfl).bind ?_
    intro number hnumber
    have hint : Numeral.intLiteral? number.value = some value := by
      rw [hnumber.value]
      exact hliteral
    exact (takes_intOf hint).bind_eq hend

/-- The rounds of the loop over the values of an enumeration.  The number of the next value is
    part of the state. -/
theorem loops_enumValues {next : Int} {values : List EnumValue} (h : EnumValues next values us)
    (before : List EnumValue) (rest : List Atom) :
    ∃ next', Loops (isAt .rightBrace) (fun (values, next) => enumValueRound values next)
      (before, next) (us ++ .mark .rightBrace :: rest) (before ++ values, next')
      (.mark .rightBrace :: rest) := by
  induction h generalizing before with
  | nil next =>
    rw [List.append_nil]
    exact ⟨next, .stop takes_isAt⟩
  | @cons next v values dropped number notes us vs hnumber hnotes hus hrest ih =>
    obtain ⟨next', hloop⟩ := ih (before ++ [v])
    rw [List.append_assoc] at hloop
    -- The next value starts with a name, which nothing before it can take.
    have hfresh : Fresh (nextKind (vs ++ .mark .rightBrace :: rest)) := by
      cases hrest with
      | nil _ => simp [Fresh]
      | cons _ _ _ _ => exact fresh_of_isName (isName_word _)
    refine ⟨next', ?_⟩
    simp only [List.cons_append, List.append_assoc]
    refine .round (takes_isAt_of_isName (isName_word _)) ?_
      (takes_enumValue hnumber hnotes hus hfresh) hloop
    simp only [List.length_cons, List.length_append]
    omega

theorem takes_enumeration {e : Enum} (h : e.Written us)
    (hrest : nextKind rest ≠ .delimiter .leftParen) :
    Takes enumeration (us ++ rest) rest (· = e) := by
  cases h with
  | @mk values notes hvalues hnotes hcomment =>
    obtain ⟨enumName, enumValues, enumNotes, comment⟩ := e
    cases hcomment
    simp only [List.cons_append, List.append_assoc]
    obtain ⟨next, hloop⟩ := loops_enumValues hvalues [] (notes ++ rest)
    rw [enumeration_eq]
    refine (takes_keyword .enum).bind ?_
    intro start hstart
    refine (takes_name enumName).bind_eq ?_
    refine (takes_delimiter .leftBrace).bind_eq ?_
    refine hloop.repeatUntil.bind_eq ?_
    refine (takes_delimiter .rightBrace).bind_eq ?_
    refine (takes_annotations hnotes hrest).bind_eq (takes_pure ?_)
    rw [hstart]
    rfl

theorem takes_struct {s : Struct} (h : s.Written us)
    (hrest : nextKind rest ≠ .delimiter .leftParen) :
    Takes (struct s.kind) (us ++ rest) rest (· = s) := by
  cases h with
  | @mk xsd fields notes hxsd hfields hnotes hcomment =>
    obtain ⟨structName, kind, structFields, structNotes, comment⟩ := s
    cases hcomment
    simp only [List.cons_append, List.append_assoc]
    rw [struct_eq]
    refine takes_advance.bind ?_
    intro start hstart
    -- The word that may stand in front of the brace leaves no trace in the struct.
    have hend : Takes (structRest kind start structName)
        (.mark .leftBrace :: (fields ++ .mark .rightBrace :: (notes ++ rest))) rest
        (· = ⟨structName, kind, structFields, structNotes, []⟩) := by
      refine (takes_delimiter .leftBrace).bind_eq ?_
      refine (takes_fieldsUntil hfields (by simp [Fresh])).bind_eq ?_
      refine (takes_annotations hnotes hrest).bind_eq (takes_pure ?_)
      rw [hstart.comment]
    refine (takes_name structName).bind_eq ?_
    cases hxsd with
    | none =>
      refine takes_peek.bind ?_
      intro t ht
      apply takes_if_neg
      · rw [ht.kind]
        rintro ⟨hkind, -⟩
        cases hkind
      · exact hend
    | marked =>
      refine takes_peek.bind ?_
      intro t ht
      apply takes_if_pos
      · rw [ht.kind, ht.value]
        exact ⟨IsIdent.kind (by decide), rfl⟩
      · refine takes_advance.bind ?_
        intro _ _
        exact hend

/-! ## Services -/

theorem takes_fieldList {fields : List Field} (h : Each Field.Written fields us) :
    Takes fieldList (.mark .leftParen :: (us ++ .mark .rightParen :: rest)) rest (· = fields) := by
  refine (takes_delimiter .leftParen).bind_eq ?_
  exact takes_fieldsUntil h (by simp [Fresh])

/-- What follows a function: another function, or the end of the service. -/
def FreshFunction (k : Kind Word) : Prop := Fresh k ∧ k ≠ .keyword .throws

theorem nextKind_result {result : Option TypeRef} (h : ResultWritten result us) (vs : List Atom) :
    nextKind (us ++ vs) = .keyword .void ∨ nextKind (us ++ vs) = .ident := by
  cases h with
  | void => exact Or.inl rfl
  | type h => exact Or.inr (nextKind_type h vs)

theorem nextKind_function {f : Function} (h : f.Written us) (vs : List Atom) :
    nextKind (us ++ vs) = .keyword .oneway ∨ nextKind (us ++ vs) = .keyword .void ∨
      nextKind (us ++ vs) = .ident := by
  cases h with
  | @mk result arguments throws notes behind hresult _ _ _ _ _ _ =>
    unfold onewayAtoms
    split
    · exact Or.inl rfl
    · rw [List.nil_append, List.append_assoc]
      exact Or.inr (nextKind_result hresult _)

section Function

variable {first : Token} (hfirst : first.comment = []) {f : Function} (hcomment : f.comment = [])
    {notes behind : List Atom} (hnotes : Annotations.Written f.annotations notes)
    (hbehind : Separator behind)

include hfirst hcomment hnotes hbehind

theorem takes_functionEnd (hrest : Fresh (nextKind rest)) :
    Takes (functionEnd first f.oneway f.result f.name f.arguments f.throws)
      (notes ++ (behind ++ rest)) rest (· = f) := by
  obtain ⟨hparen, -, hcomma, hsemicolon⟩ := hrest
  obtain ⟨functionName, result, arguments, throws, oneway, functionNotes, comment⟩ := f
  cases hcomment
  refine (takes_annotations hnotes ?_).bind_eq ?_
  · exact hbehind.next (P := (· ≠ .delimiter .leftParen)) (by simp) (by simp) hparen
  refine (takes_separator hbehind hcomma hsemicolon).bind ?_
  intro last hlast
  apply takes_pure
  cases last with
  | none => simp only [hfirst]
  | some t => simp only [hfirst, hlast t rfl, ite_self]

theorem takes_functionRest {arguments throws : List Atom}
    (harguments : Each Field.Written f.arguments arguments) (hthrows : Throws f.throws throws)
    (hrest : FreshFunction (nextKind rest)) :
    Takes (functionRest first f.oneway f.result)
      (.word f.name :: .mark .leftParen :: (arguments ++ .mark .rightParen ::
        (throws ++ (notes ++ (behind ++ rest)))))
      rest (· = f) := by
  obtain ⟨hfresh, hthrowsWord⟩ := hrest
  have hend := takes_functionEnd hfirst hcomment hnotes hbehind hfresh
  refine (takes_name f.name).bind_eq ?_
  refine (takes_fieldList harguments).bind_eq ?_
  generalize f.throws = given at hthrows hend
  cases hthrows with
  | none =>
    refine (takes_accept_of_ne ?_).bind_eq hend
    -- The annotations and the separator may be missing too, and then the rest comes next.
    apply hnotes.next (P := (· ≠ .keyword .throws)) (by simp)
    exact hbehind.next (P := (· ≠ .keyword .throws)) (by simp) (by simp) hthrowsWord
  | listed h =>
    simp only [List.cons_append, List.append_assoc, List.nil_append]
    refine (takes_accept_keyword .throws).bind_eq ?_
    exact (takes_fieldList h).bind_eq hend

end Function

theorem takes_function {f : Function} (h : f.Written us) (hrest : FreshFunction (nextKind rest)) :
    Takes function (us ++ rest) rest (· = f) := by
  have hstart := nextKind_function h rest
  have hne : nextKind (us ++ rest) ≠ .eof := by
    intro heof
    rw [heof] at hstart
    simp at hstart
  rw [function_eq]
  refine (takes_peek_of_ne hne).bind ?_
  intro first hfirst
  cases h with
  | @mk result arguments throws notes behind hresult hname harguments hthrows hnotes hbehind
      hcomment =>
    have hend := takes_functionRest hfirst.2 hcomment hnotes hbehind harguments hthrows hrest
    simp only [List.cons_append, List.append_assoc] at hstart ⊢
    -- Read from the end to the front: behind the result nothing depends on it.
    have hresultEnd : Takes (functionResult first f.oneway)
        (result ++ .word f.name :: .mark .leftParen :: (arguments ++ .mark .rightParen ::
          (throws ++ (notes ++ (behind ++ rest)))))
        rest (· = f) := by
      generalize f.result = type at hresult hend
      cases hresult with
      | void => exact (takes_accept_keyword .void).bind_eq hend
      | type htype =>
        refine (takes_accept_of_ne (by simp [nextKind_type htype])).bind_eq ?_
        refine takes_bound.bind_eq ?_
        exact (takes_typeRef htype (by simp; omega) (typeEnd_name hname _)).bind_eq hend
    generalize f.oneway = oneway at hresultEnd
    cases oneway with
    | true => exact (takes_accept_keyword .oneway).bind_eq hresultEnd
    | false =>
      refine (takes_accept_of_ne ?_).bind_eq hresultEnd
      show nextKind (result ++ _) ≠ _
      rcases nextKind_result hresult (.word f.name :: .mark .leftParen ::
        (arguments ++ .mark .rightParen :: (throws ++ (notes ++ (behind ++ rest))))) with h | h
      · simp [h]
      · simp [h]

theorem takes_service {s : Service} (h : s.Written us)
    (hrest : nextKind rest ≠ .delimiter .leftParen) :
    Takes service (us ++ rest) rest (· = s) := by
  cases h with
  | @mk functions notes hfunctions hnotes hcomment =>
    obtain ⟨serviceName, parent, serviceFunctions, serviceNotes, comment⟩ := s
    cases hcomment
    simp only [List.cons_append, List.append_assoc]
    rw [service_eq]
    refine (takes_keyword .service).bind ?_
    intro start hstart
    have hend : Takes (serviceRest start serviceName parent)
        (.mark .leftBrace :: (functions ++ .mark .rightBrace :: (notes ++ rest))) rest
        (· = ⟨serviceName, parent, serviceFunctions, serviceNotes, []⟩) := by
      refine (takes_delimiter .leftBrace).bind_eq ?_
      refine (takes_each (F := FreshFunction) hfunctions id ?_ ?_ ?_).bind_eq ?_
      · intro f u hu
        have hkind := nextKind_function hu []
        rw [List.append_nil] at hkind
        rcases hkind with h | h | h <;> rw [h] <;> simp [FreshFunction, Fresh]
      · simp [FreshFunction, Fresh]
      · intro before f after _ u vs hu hvs
        exact (takes_function hu hvs).bind_eq (takes_pure rfl)
      refine (takes_delimiter .rightBrace).bind_eq ?_
      refine (takes_annotations hnotes hrest).bind_eq (takes_pure ?_)
      rw [hstart]
      rfl
    refine (takes_name serviceName).bind_eq ?_
    cases parent with
    | none => exact (takes_accept_of_ne (by simp [parentAtoms])).bind_eq hend
    | some parent =>
      refine (takes_accept_keyword .extendsWord).bind_eq ?_
      exact (takes_name parent).bind_eq hend

/-! ## Documents -/

/-- A statement starts with a keyword, so it does not go on with the one before it. -/
theorem nextKind_statement {s : Statement} (h : s.Written us) :
    ∃ k : Word, nextKind us = .keyword k := by
  cases h with
  | includeFile _ => exact ⟨_, rfl⟩
  | namespaceText _ _ _ => exact ⟨_, rfl⟩
  | namespaceName _ _ _ => exact ⟨_, rfl⟩
  | typedef _ _ _ => exact ⟨_, rfl⟩
  | constant _ _ _ => exact ⟨_, rfl⟩
  | enum h => cases h; exact ⟨_, rfl⟩
  | struct h => cases h; exact ⟨_, rfl⟩
  | service h => cases h; exact ⟨_, rfl⟩
  | cppInclude _ => exact ⟨_, rfl⟩
  | senum _ _ => exact ⟨_, rfl⟩

theorem takes_typedef {t : Typedef} {type notes : List Atom} (htype : t.type.Written type)
    (hname : IsName t.name) (hnotes : Annotations.Written t.annotations notes)
    (hus : Separator us) (hrest : Fresh (nextKind rest)) :
    Takes typedef (.keyword .typedef :: (type ++ .word t.name :: (notes ++ (us ++ rest)))) rest
      (· = t) := by
  obtain ⟨hparen, -, hcomma, hsemicolon⟩ := hrest
  refine (takes_keyword .typedef).bind ?_
  intro _ _
  refine takes_bound.bind_eq ?_
  refine (takes_typeRef htype (by simp; omega) (typeEnd_name hname _)).bind_eq ?_
  refine (takes_name t.name).bind_eq ?_
  refine (takes_annotations hnotes ?_).bind_eq ?_
  · exact hus.next (P := (· ≠ .delimiter .leftParen)) (by simp) (by simp) hparen
  exact (takes_separator hus hcomma hsemicolon).bind fun _ _ => takes_pure rfl

theorem takes_const {name : Text} {t : TypeRef} {type value : List Atom} (htype : t.Written type)
    (hname : IsName name) (hvalue : ConstantValue value) (hus : Separator us)
    (hrest : Fresh (nextKind rest)) :
    Takes constant
      (.keyword .const :: (type ++ .word name :: .mark .equals :: (value ++ (us ++ rest)))) rest
      (· = name) := by
  obtain ⟨-, -, hcomma, hsemicolon⟩ := hrest
  refine (takes_keyword .const).bind ?_
  intro _ _
  refine takes_bound.bind_eq ?_
  refine (takes_typeRef htype (by simp; omega) (typeEnd_name hname _)).bind_eq ?_
  refine (takes_name name).bind_eq ?_
  refine (takes_delimiter .equals).bind_eq ?_
  refine takes_bound.bind_eq ?_
  refine (takes_skipConstant hvalue (by simp; omega)).bind_eq ?_
  exact (takes_separator hus hcomma hsemicolon).bind fun _ _ => takes_pure rfl

/-- The declaration of a namespace for a scope that has none yet. -/
theorem takes_namespace {d : Document} {scope target : Text} {word : Atom} {notes : List Atom}
    {dropped : Annotations} (hscope : d.namespaces.has scope = false)
    (hword : word = .string target ∨ word = .word target)
    (hnotes : Annotations.Written dropped notes) (hrest : nextKind rest ≠ .delimiter .leftParen) :
    Takes (declaration d) (.keyword .namespaceWord :: .word scope :: word :: (notes ++ rest)) rest
      (· = { d with namespaces := d.namespaces ++ [(scope, target)] }) := by
  have hend : Takes (namespaceRest d scope target) (notes ++ rest) rest
      (· = { d with namespaces := d.namespaces ++ [(scope, target)] }) := by
    refine (takes_annotations hnotes hrest).bind_eq (takes_pure ?_)
    rw [Table.insert_eq_append hscope]
  refine takes_peek.bind ?_
  intro t ht
  rw [ht.kind]
  refine takes_advance.bind ?_
  intro _ _
  refine (takes_name scope).bind_eq ?_
  refine (takes_nextIs _).bind_eq ?_
  rcases hword with rfl | rfl
  · apply takes_if_pos (by simp)
    exact (takes_string target).bind_eq hend
  · -- A word is told from a string by its kind, whatever it says.
    have hkind : (Atom.word target : Atom).kind ≠ .string := kind_word_ne target rfl
    apply takes_if_neg (by simp [hkind])
    exact (takes_name target).bind_eq hend

/-- The declaration of a statement.  Typedefs and constants take the separator behind them, and
    other statements leave it to the next round. -/
theorem takes_declaration {s : Statement} (h : s.Written us) (hvs : Separator vs) (d : Document)
    (hscope : ∀ scope target, s = .namespaceFor scope target → d.namespaces.has scope = false)
    (hrest : Fresh (nextKind rest)) :
    Takes (declaration d) (us ++ (vs ++ rest)) rest (· = s.addTo d) ∨
      Takes (declaration d) (us ++ (vs ++ rest)) (vs ++ rest) (· = s.addTo d) := by
  have hparen : nextKind (vs ++ rest) ≠ .delimiter .leftParen :=
    hvs.next (P := (· ≠ .delimiter .leftParen)) (by simp) (by simp) hrest.1
  cases h with
  | includeFile path =>
    right
    refine takes_peek.bind ?_
    intro t ht
    rw [ht.kind]
    refine takes_advance.bind ?_
    intro _ _
    exact (takes_string path).bind_eq (takes_pure rfl)
  | namespaceText scope target hnotes =>
    right
    rw [List.cons_append, List.cons_append, List.cons_append]
    exact takes_namespace (hscope scope target rfl) (Or.inl rfl) hnotes hparen
  | namespaceName scope target hnotes =>
    right
    rw [List.cons_append, List.cons_append, List.cons_append]
    exact takes_namespace (hscope scope target rfl) (Or.inr rfl) hnotes hparen
  | typedef htype hname hnotes =>
    left
    simp only [List.cons_append, List.append_assoc]
    refine takes_peek.bind ?_
    intro t ht
    rw [ht.kind]
    exact (takes_typedef htype hname hnotes hvs hrest).bind_eq (takes_pure rfl)
  -- Like a typedef, a constant reads to the separator behind it.
  | constant htype hname hvalue =>
    left
    simp only [List.cons_append, List.append_assoc]
    refine takes_peek.bind ?_
    intro t ht
    rw [ht.kind]
    exact (takes_const htype hname hvalue hvs hrest).bind_eq (takes_pure rfl)
  | @enum e us h =>
    right
    have htakes := takes_enumeration h hparen
    refine takes_peek_kind.bind ?_
    intro t ht
    cases h with
    | mk hvalues hnotes hcomment =>
      rw [ht]
      exact htakes.bind_eq (takes_pure rfl)
  | @struct s us h =>
    right
    have htakes := takes_struct h hparen
    refine takes_peek_kind.bind ?_
    intro t ht
    cases h with
    | mk hxsd hfields hnotes hcomment =>
      obtain ⟨structName, kind, fields, notes, comment⟩ := s
      rw [ht]
      cases kind with
      | struct => exact htakes.bind_eq (takes_pure rfl)
      | union => exact htakes.bind_eq (takes_pure rfl)
      | exception => exact htakes.bind_eq (takes_pure rfl)
  | @service s us h =>
    right
    have htakes := takes_service h hparen
    refine takes_peek_kind.bind ?_
    intro t ht
    cases h with
    | mk hfunctions hnotes hcomment =>
      rw [ht]
      exact htakes.bind_eq (takes_pure rfl)
  | cppInclude path =>
    right
    refine takes_peek.bind ?_
    intro t ht
    rw [ht.kind]
    refine takes_advance.bind ?_
    intro _ _
    exact (takes_string path).bind_eq (takes_pure rfl)
  | senum hheader hbody =>
    right
    simp only [List.cons_append, List.append_assoc, List.nil_append]
    refine takes_peek.bind ?_
    intro t ht
    rw [ht.kind]
    exact (takes_skipBlock hheader hbody).bind_eq (takes_pure rfl)

/-- A separator is a round of its own where no declaration takes it. -/
theorem loops_separator (hvs : Separator vs) {d : Document} {b : Document}
    (hloop : Loops atEnd declaration d rest b us) :
    Loops atEnd declaration d (vs ++ rest) b us := by
  cases hvs with
  | none => exact hloop
  | comma =>
    refine .round (takes_atEnd_of_ne (by simp)) (by simp) ?_ hloop
    refine takes_peek.bind ?_
    intro t ht
    rw [ht.kind]
    exact takes_advance.bind fun _ _ => takes_pure rfl
  | semicolon =>
    refine .round (takes_atEnd_of_ne (by simp)) (by simp) ?_ hloop
    refine takes_peek.bind ?_
    intro t ht
    rw [ht.kind]
    exact takes_advance.bind fun _ _ => takes_pure rfl

/-- What statements declare is behind the namespaces that are there already. -/
theorem namespaces_foldl (statements : List Statement) (d : Document) :
    ∃ new, (statements.foldl Statement.addTo d).namespaces = d.namespaces ++ new := by
  induction statements generalizing d with
  | nil => exact ⟨[], (List.append_nil _).symm⟩
  | cons s statements ih =>
    obtain ⟨new, hnew⟩ := ih (s.addTo d)
    have hstep : ∃ first, (s.addTo d).namespaces = d.namespaces ++ first := by
      cases s with
      | namespaceFor scope target => exact ⟨[(scope, target)], rfl⟩
      | _ => exact ⟨[], (List.append_nil _).symm⟩
    obtain ⟨first, hfirst⟩ := hstep
    refine ⟨first ++ new, ?_⟩
    rw [List.foldl_cons, hnew, hfirst, List.append_assoc]

/-- Scopes that are distinct in the end are new where they are declared. -/
theorem scope_new {before after : List Statement} {scope target : Text}
    (h : (Table.keys (Document.ofStatements
      (before ++ .namespaceFor scope target :: after)).namespaces).Nodup) :
    (Document.ofStatements before).namespaces.has scope = false := by
  unfold Document.ofStatements at h ⊢
  rw [List.foldl_append, List.foldl_cons] at h
  obtain ⟨new, hnew⟩ := namespaces_foldl after
    (Statement.addTo (before.foldl Statement.addTo .empty) (.namespaceFor scope target))
  rw [hnew, Statement.addTo, Table.keys, List.map_append, List.map_append] at h
  have hapart := (List.nodup_append.1 (List.nodup_append.1 h).1).2.2
  apply Bool.eq_false_iff.2
  intro hhas
  exact hapart scope (Table.mem_keys.2 hhas) scope List.mem_cons_self rfl

/-- A statement and the separator behind it, in front of the rest of the document. -/
theorem loops_statement {s : Statement} (h : s.Separated us) {d b : Document}
    (hscope : ∀ scope target, s = .namespaceFor scope target → d.namespaces.has scope = false)
    (hrest : Fresh (nextKind rest)) (hloop : Loops atEnd declaration (s.addTo d) rest b vs) :
    Fresh (nextKind (us ++ rest)) ∧ Loops atEnd declaration d (us ++ rest) b vs := by
  cases h with
  | @mk us behind h hbehind =>
    obtain ⟨k, hkind⟩ := nextKind_statement h
    have hne : nextKind us ≠ .eof := by simp [hkind]
    have hdone : ∀ us : List Atom, nextKind us ≠ .eof → Takes atEnd us us (· = false) :=
      fun _ => takes_atEnd_of_ne
    rw [List.append_assoc]
    constructor
    · rw [nextKind_append hne, hkind]
      exact fresh_of_isName rfl
    · -- A separator that the statement has left is a round of its own.
      rcases takes_declaration h hbehind d hscope hrest with htakes | htakes
      · rw [← List.append_assoc] at htakes ⊢
        refine Loops.round_of_starts (S := (· ≠ .eof)) hdone (by simp) ?_ htakes hloop
        rw [nextKind_append hne]
        exact hne
      · exact Loops.round_of_starts (S := (· ≠ .eof)) hdone (by simp) hne htakes
          (loops_separator hbehind hloop)

theorem takes_document {d : Document} (h : d.Written us) (hscopes : d.namespaces.keys.Nodup) :
    Takes document us [] (· = d) := by
  obtain ⟨statements, heach, rfl⟩ := h
  rw [← List.append_nil us]
  apply Loops.repeatUntil
  apply Loops.each (F := Fresh) heach Document.ofStatements
  · intro before s after hstatements u rest hu hrest hloop
    apply loops_statement hu ?_ hrest
    · rw [Document.ofStatements, List.foldl_append] at hloop
      exact hloop
    · intro scope target hs
      rw [hstatements, hs] at hscopes
      exact scope_new hscopes
  · simp [Fresh, nextKind]
  · exact .stop takes_atEnd

end Parser

/-- The grammar is accepted, and nothing of it is lost.  A regular document has a spelling, and
    whichever of its spellings comes without comments, wherever its tokens stand, reads as the
    document. -/
theorem accepts_document {d : Document} (h : d.Regular) :
    (∃ us, d.Written us) ∧ ∀ us, d.Written us → ∀ (ts : List Token) (eof : Token),
      List.Forall₂ Token.Is ts us → eof.Is .eof → Document.ofTokens? (ts ++ [eof]) = .ok d := by
  constructor
  · exact h.exists_written
  · intro us hus ts eof hts heof
    exact Idl.Parser.parse_of_takes (Parser.takes_document hus h.scopes) hts heof

/-! ## A document

    Nothing is in its usual order, separators are of both kinds or left out, and a default value,
    a constant and an enumeration's value without a number stand among the declarations.
-/

/-- A field with nested containers and an annotation. -/
def pagesField : Field :=
  { name := "pages", id := some 1, requiredness := .required, annotations := [("tag", "p")],
    type := ⟨"map", [⟨"string", [], []⟩, ⟨"list", [⟨"i32", [], []⟩], []⟩], []⟩, comment := [] }

/-- A field without a number. -/
def titleField : Field :=
  { name := "title", id := none, requiredness := .unmarked, annotations := [],
    type := ⟨"string", [], []⟩, comment := [] }

/-- An argument of a function. -/
def bookArgument : Field :=
  { name := "book", id := some 2, requiredness := .unmarked, annotations := [],
    type := ⟨"Book", [], []⟩, comment := [] }

/-- A function that is not answered. -/
def putFunction : Function :=
  { name := "put", result := none, arguments := [bookArgument], throws := [], oneway := true,
    annotations := [("api.get", "1")], comment := [] }

def shelf : Document where
  includes := ["base.thrift"]
  namespaces := [("py", "books")]
  typedefs := []
  constants := ["sizes"]
  enums := [⟨"Size", [⟨"SMALL", 0⟩, ⟨"LARGE", 5⟩], [], []⟩]
  structs := [⟨"Book", .struct, [pagesField, titleField], [], []⟩]
  services := [⟨"Shelf", some "Base", [putFunction], [], []⟩]

/-- The atoms of `shelf` in one of its spellings. -/
def shelfAtoms : List Atom :=
  [.keyword .service, .word "Shelf", .keyword .extendsWord, .word "Base", .mark .leftBrace,
    .keyword .oneway, .keyword .void, .word "put", .mark .leftParen,
      .number "0x2", .mark .colon, .word "Book", .word "book", .mark .rightParen,
      .mark .leftParen, .word "api.get", .mark .semicolon, .mark .rightParen, .mark .comma,
    .mark .rightBrace,
  .keyword .const, .word "list", .mark .leftAngle, .word "i32", .mark .rightAngle, .word "sizes",
    .mark .equals, .mark .leftBracket, .number "1", .mark .comma, .number "2", .mark .semicolon,
    .mark .rightBracket, .mark .semicolon,
  .keyword .namespaceWord, .word "py", .word "books",
  .keyword .struct, .word "Book", .mark .leftBrace,
    .number "1", .mark .colon, .keyword .required, .word "map", .mark .leftAngle, .word "string",
      .mark .comma, .word "list", .mark .leftAngle, .word "i32", .mark .rightAngle,
      .mark .rightAngle, .word "pages", .mark .equals, .mark .leftBrace, .mark .rightBrace,
      .mark .leftParen, .word "tag", .mark .equals, .string "p", .mark .rightParen,
    .word "string", .word "title", .mark .semicolon,
    .mark .rightBrace, .mark .comma,
  .keyword .includeWord, .string "base.thrift", .mark .semicolon,
  .keyword .enum, .word "Size", .mark .leftBrace, .word "SMALL", .mark .comma,
    .word "LARGE", .mark .equals, .number "5", .mark .rightBrace]

/-- A plain type is a name. -/
theorem isName_plain : IsName "i32" ∧ IsName "string" ∧ IsName "Book" ∧ IsName "list" := by
  refine ⟨?_, ?_, ?_, ?_⟩ <;> exact ⟨by decide, by decide⟩

theorem regular_shelf : shelf.Regular where
  scopes := by decide
  typedefs := by
    intro t ht
    cases ht
  constants := by
    intro name hname
    rw [List.mem_singleton.1 hname]
    exact ⟨by decide, by decide⟩
  enums := by
    intro e he
    rw [List.mem_singleton.1 he]
  structs := by
    obtain ⟨hi32, hstring, -, -⟩ := isName_plain
    have hpages : pagesField.Regular := by
      refine ⟨?_, ⟨by decide, by decide⟩, rfl⟩
      exact .entry (.named hstring) (.element (Or.inl rfl) (.named hi32))
    have htitle : titleField.Regular :=
      ⟨.named hstring, ⟨by decide, by decide⟩, rfl⟩
    intro s hs
    rw [List.mem_singleton.1 hs]
    exact ⟨List.forall_mem_cons.2 ⟨hpages, List.forall_mem_singleton.2 htitle⟩, rfl⟩
  services := by
    have hbook : bookArgument.Regular :=
      ⟨.named isName_plain.2.2.1, ⟨by decide, by decide⟩, rfl⟩
    have hput : putFunction.Regular := by
      refine ⟨?_, ⟨by decide, by decide⟩, List.forall_mem_singleton.2 hbook, ?_, rfl⟩
      · intro t ht
        cases ht
      · intro a ha
        cases ha
    intro s hs
    rw [List.mem_singleton.1 hs]
    exact ⟨List.forall_mem_singleton.2 hput, rfl⟩

theorem written_shelf : shelf.Written shelfAtoms := by
  obtain ⟨hi32, hstring, hbookName, -⟩ := isName_plain
  have hone : FieldId (some 1) [.number "1", .mark .colon] := .literal (by decide)
  have htwo : FieldId (some 2) [.number "0x2", .mark .colon] := .literal (by decide)
  have hlarge : EnumNumber 1 5 [.mark .equals, .number "5"] := .literal (by decide)
  have htag : Annotation.Written ("tag", "p") [.word "tag", .mark .equals, .string "p"] :=
    .valued "tag" (.string "p") (Or.inl rfl) .none
  have hbook : bookArgument.Written _ :=
    .mk htwo (.named hbookName .none .absent) ⟨by decide, by decide⟩ .none
      .absent .none rfl
  have hput : putFunction.Written _ :=
    .mk .void ⟨by decide, by decide⟩ (.cons hbook .nil) .none
      (.listed (.cons (.bare "api.get" .semicolon) .nil)) .comma rfl
  have hpages : pagesField.Written _ :=
    .mk hone
      (.entry (.named hstring .none .absent)
        (.element (Or.inl rfl) (.named hi32 .none .absent) .none .absent) .none .absent)
      ⟨by decide, by decide⟩
      (.value (@ConstantValue.map [] (by simp) (by simp) (by simp)))
      (.listed (.cons htag .nil)) .none rfl
  have htitle : titleField.Written _ :=
    .mk .none (.named hstring .none .absent) ⟨by decide, by decide⟩ .none .absent
      .semicolon rfl
  have hsizes : ConstantValue
      [.mark .leftBracket, .number "1", .mark .comma, .number "2", .mark .semicolon,
        .mark .rightBracket] :=
    @ConstantValue.list [⟨[.number "1"], [.mark .comma]⟩, ⟨[.number "2"], [.mark .semicolon]⟩]
      (by simpa using ⟨.number "1", .number "2"⟩) (by simpa using ⟨.comma, .semicolon⟩)
  have hservice : Statement.Separated (.service ⟨"Shelf", some "Base", [putFunction], [], []⟩) _ :=
    .mk (.service (.mk (.cons hput .nil) .absent rfl)) .none
  have hconstant : Statement.Separated (.constant "sizes") _ :=
    .mk (.constant (.element (Or.inl rfl) (.named hi32 .none .absent) .none .absent)
      ⟨by decide, by decide⟩ hsizes) .semicolon
  have hnamespace : Statement.Separated (.namespaceFor "py" "books") _ :=
    .mk (.namespaceName "py" "books" .absent) .none
  have hstruct : Statement.Separated
      (.struct ⟨"Book", .struct, [pagesField, titleField], [], []⟩) _ :=
    .mk (.struct (.mk .none (.cons hpages (.cons htitle .nil)) .absent rfl)) .comma
  have hinclude : Statement.Separated (.includeFile "base.thrift") _ :=
    .mk (.includeFile "base.thrift") .semicolon
  have henum : Statement.Separated
      (.enum ⟨"Size", [⟨"SMALL", 0⟩, ⟨"LARGE", 5⟩], [], []⟩) _ :=
    .mk (.enum (.mk (.cons .next .absent .comma (.cons hlarge .absent .none (.nil _))) .absent rfl))
      .none
  have hall : Each Statement.Separated _ _ :=
    .cons hservice (.cons hconstant (.cons hnamespace (.cons hstruct (.cons hinclude
      (.cons henum .nil)))))
  exact ⟨_, hall, rfl⟩

theorem accepts_shelf : shelf.Regular ∧ shelf.Written shelfAtoms ∧
    Document.ofTokens? (shelfAtoms.map Atom.token ++ [Atom.token .eof]) = .ok shelf := by
  refine ⟨regular_shelf, written_shelf, ?_⟩
  exact (accepts_document regular_shelf).2 shelfAtoms written_shelf _ _
    (Atom.forall₂_token shelfAtoms) ⟨rfl, rfl, rfl, rfl⟩

end IdlBridge.Thrift
