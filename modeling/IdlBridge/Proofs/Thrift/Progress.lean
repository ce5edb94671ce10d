import IdlBridge.Proofs.Idl.Progress
import IdlBridge.Proofs.Thrift.Stages

/-! # Progress through Thrift sources

    Every parser of a declaration proceeds, on whatever tokens.  Those that loops and recursions
    rely on consume at least one token: a constant value, a type, a field, a function, a
    declaration.  `Procedure` lists them all for the statement about whole sources.
-/

namespace IdlBridge.Thrift.Parser

open Idl Idl.Parser

variable {ts : List Token} {n : Nat}

/-- The bound that is taken from a stream counts the tokens ahead and the one for the end. -/
theorem proceeds_bound : Proceeds ts n bound fun b m => m = n ∧ b = ts.length - n := by
  refine proceeds_get.bind ?_
  intro s m _ h
  obtain ⟨rfl, hs⟩ := h
  have hlength := hs.length_ahead
  exact proceeds_pure ⟨rfl, by omega⟩

variable (hts : Ended ts)

include hts

theorem proceeds_separator : Proceeds ts n separator fun _ _ => True := by
  refine proceeds_peek.bind ?_
  intro t m _ _
  split
  · exact (proceeds_advance hts).bind fun _ _ _ _ => proceeds_pure trivial
  · exact proceeds_pure trivial

/-! ## Constant values -/

section Constants

variable {skipValue : Parser Unit}
    (hvalue : ∀ m, n ≤ m → Proceeds ts m skipValue fun _ m' => m < m')

include hvalue

theorem proceeds_skipItems : Proceeds ts n (skipItems skipValue) fun _ _ => True := by
  refine (proceeds_repeatUntil (fun _ => proceeds_isAt _) ?_ ()).bind ?_
  · intro _ m hm
    refine (hvalue m hm).bind ?_
    intro _ m' _ hlt
    refine (proceeds_separator hts).bind ?_
    intro _ m'' hle _
    exact proceeds_pure (by omega)
  · intro _ m _ _
    exact (proceeds_delimiter hts _).mono fun _ _ _ _ => trivial

theorem proceeds_skipEntries : Proceeds ts n (skipEntries skipValue) fun _ _ => True := by
  refine (proceeds_repeatUntil (fun _ => proceeds_isAt _) ?_ ()).bind ?_
  · intro _ m hm
    refine (hvalue m hm).bind ?_
    intro _ m₁ _ hkey
    refine (proceeds_delimiter hts _).bind ?_
    intro _ m₂ _ hcolon
    refine (hvalue m₂ (by omega)).bind ?_
    intro _ m₃ _ hvalue
    refine (proceeds_separator hts).bind ?_
    intro _ m₄ hle _
    exact proceeds_pure (by omega)
  · intro _ m _ _
    exact (proceeds_delimiter hts _).mono fun _ _ _ _ => trivial

end Constants

/-- A constant value consumes its first token, so the bound is large enough for what it holds. -/
theorem proceeds_skipConstant {bound : Nat} (hbound : ts.length - n ≤ bound) :
    Proceeds ts n (skipConstant bound) fun _ m => n < m := by
  induction bound generalizing n with
  | zero =>
    apply proceeds_of_lt
    intro hlt
    omega
  | succ bound ih =>
    refine (proceeds_advance hts).bind ?_
    intro t m hle h
    obtain ⟨ht, hlt⟩ := h
    -- The first token has been consumed, which pays for the smaller bound.
    have hitem : n < m → ∀ k, m ≤ k → Proceeds ts k (skipConstant bound) fun _ k' => k < k' := by
      intro hnm k hk
      exact ih (by omega)
    split
    · next hkind =>
      have hnm : n < m := hlt (by simp [hkind])
      exact (proceeds_skipItems hts (hitem hnm)).mono fun _ _ _ _ => by omega
    · next hkind =>
      have hnm : n < m := hlt (by simp [hkind])
      exact (proceeds_skipEntries hts (hitem hnm)).mono fun _ _ _ _ => by omega
    · next hkind => exact proceeds_pure (hlt (by simp [hkind]))
    · next hkind => exact proceeds_pure (hlt (by simp [hkind]))
    · next hkind => exact proceeds_pure (hlt (by simp [hkind]))
    · exact proceeds_fail (by simp) (List.mem_of_getElem? ht)

theorem proceeds_skipDefault : Proceeds ts n skipDefault fun _ _ => True := by
  refine (proceeds_accept hts _).bind ?_
  intro b m _ _
  split
  · refine proceeds_bound.bind ?_
    intro b m' _ h
    obtain ⟨rfl, rfl⟩ := h
    exact (proceeds_skipConstant hts (Nat.le_refl _)).mono fun _ _ _ _ => trivial
  · exact proceeds_pure trivial

/-! ## Annotations and types -/

theorem proceeds_annotationValue : Proceeds ts n annotationValue fun _ _ => True := by
  have hread : ∀ m, Proceeds ts m (do return (← advance).value : Parser Text) fun _ _ => True := by
    intro m
    exact (proceeds_advance hts).bind fun _ _ _ _ => proceeds_pure trivial
  refine (proceeds_accept hts _).bind ?_
  intro b m _ _
  split
  · refine proceeds_peek.bind ?_
    intro t m' _ h
    split
    · exact hread m'
    · exact hread m'
    · exact hread m'
    · exact proceeds_fail (by simp) (List.mem_of_getElem? h.2)
  · exact proceeds_pure trivial

theorem proceeds_annotationRound (pairs : Annotations) :
    Proceeds ts n (annotationRound pairs) fun _ m => n < m := by
  refine (proceeds_name hts).bind ?_
  intro key m₁ _ hkey
  refine (proceeds_annotationValue hts).bind ?_
  intro value m₂ hvalue _
  refine (proceeds_separator hts).bind ?_
  intro _ m₃ hle _
  exact proceeds_pure (by omega)

theorem proceeds_annotations : Proceeds ts n annotations fun _ _ => True := by
  refine (proceeds_accept hts _).bind ?_
  intro b m _ _
  split
  · refine (proceeds_repeatUntil (fun _ => proceeds_isAt _) ?_ []).bind ?_
    · intro pairs m hm
      exact proceeds_annotationRound hts pairs
    · intro pairs m' _ _
      exact (proceeds_delimiter hts _).bind fun _ _ _ _ => proceeds_pure trivial
  · exact proceeds_pure trivial

theorem proceeds_elementTypes (container : Text) {element : Parser TypeRef}
    (helement : ∀ m, n ≤ m → Proceeds ts m element fun _ m' => m < m') :
    Proceeds ts n (elementTypes container element) fun _ _ => True := by
  refine (proceeds_delimiter hts _).bind ?_
  intro _ m₁ hopen _
  refine (helement m₁ hopen).bind ?_
  intro first m₂ hfirst _
  split
  · refine (proceeds_delimiter hts _).bind ?_
    intro _ m₃ hcomma _
    refine (helement m₃ (by omega)).bind ?_
    intro second m₄ _ _
    exact (proceeds_delimiter hts _).bind fun _ _ _ _ => proceeds_pure trivial
  · exact (proceeds_delimiter hts _).bind fun _ _ _ _ => proceeds_pure trivial

/-- What follows the element types consumes some more tokens or none. -/
theorem proceeds_typeRefRest (typeName : Text) (args : List TypeRef) :
    Proceeds ts n (typeRefRest typeName args) fun _ _ => True := by
  have hnotes : ∀ m, Proceeds ts m (do
      return (⟨typeName, args, ← annotations⟩ : TypeRef)) fun _ _ => True := by
    intro m
    exact (proceeds_annotations hts).bind fun _ _ _ _ => proceeds_pure trivial
  refine proceeds_peek.bind ?_
  intro t m₁ _ _
  split
  · refine (proceeds_advance hts).bind ?_
    intro _ m₂ _ _
    refine (proceeds_string hts).bind ?_
    intro _ m₃ _ _
    exact hnotes m₃
  · exact hnotes m₁

/-- A type consumes its name, so the bound is large enough for its element types. -/
theorem proceeds_typeRef {bound : Nat} (hbound : ts.length - n ≤ bound) :
    Proceeds ts n (typeRef bound) fun _ m => n < m := by
  induction bound generalizing n with
  | zero =>
    apply proceeds_of_lt
    intro hlt
    omega
  | succ bound ih =>
    refine (proceeds_name hts).bind ?_
    intro typeName m hle hname
    have hend : ∀ args k, m ≤ k → Proceeds ts k (typeRefRest typeName args) fun _ m => n < m := by
      intro args k hk
      exact (proceeds_typeRefRest hts typeName args).mono fun _ _ _ _ => by omega
    refine (proceeds_nextIs _).bind ?_
    intro b m' hm' _
    split
    · refine (proceeds_elementTypes hts typeName fun k hk => ih (by omega)).bind ?_
      intro args k hk _
      exact hend args k (by omega)
    · exact hend [] m' hm'

/-! ## Declarations -/

theorem proceeds_mark : Proceeds ts n mark fun _ _ => True := by
  refine proceeds_peek.bind ?_
  intro t m _ _
  split
  · exact (proceeds_advance hts).bind fun _ _ _ _ => proceeds_pure trivial
  · exact (proceeds_advance hts).bind fun _ _ _ _ => proceeds_pure trivial
  · exact proceeds_pure trivial

/-- Behind the number there is at least a type. -/
theorem proceeds_fieldRest (first : Token) (id : Option Int) :
    Proceeds ts n (fieldRest first id) fun _ m => n < m := by
  refine (proceeds_mark hts).bind ?_
  intro requiredness m₁ hm₁ _
  refine proceeds_bound.bind ?_
  intro b m₂ _ h
  obtain ⟨rfl, rfl⟩ := h
  refine (proceeds_typeRef hts (Nat.le_refl _)).bind ?_
  intro type m₃ _ htype
  refine (proceeds_name hts).bind ?_
  intro fieldName m₄ hm₄ _
  refine (proceeds_skipDefault hts).bind ?_
  intro _ m₅ hm₅ _
  refine (proceeds_annotations hts).bind ?_
  intro notes m₆ hm₆ _
  refine proceeds_get.bind ?_
  intro s m₇ hm₇ _
  refine (proceeds_separator hts).bind ?_
  intro last m₈ hm₈ _
  exact proceeds_pure (by omega)

theorem proceeds_field : Proceeds ts n field fun _ m => n < m := by
  rw [field_eq]
  refine proceeds_peek.bind ?_
  intro first m₀ hm₀ _
  split
  · refine (proceeds_advance hts).bind ?_
    intro number m₁ hm₁ h
    refine (proceeds_intOf (List.mem_of_getElem? h.1)).bind ?_
    intro i m₂ hm₂ _
    refine (proceeds_delimiter hts _).bind ?_
    intro _ m₃ hm₃ _
    exact (proceeds_fieldRest hts first (some i)).mono fun _ _ _ _ => by omega
  · exact (proceeds_fieldRest hts first none).mono fun _ _ _ _ => by omega

theorem proceeds_fieldsUntil (d : Delimiter) : Proceeds ts n (fieldsUntil d) fun _ _ => True := by
  refine (proceeds_repeatUntil (fun _ => proceeds_isAt _) ?_ []).bind ?_
  · intro fields m _
    exact (proceeds_field hts).bind fun _ _ _ h => proceeds_pure h
  · intro fields m _ _
    exact (proceeds_delimiter hts _).bind fun _ _ _ _ => proceeds_pure trivial

theorem proceeds_fieldList : Proceeds ts n fieldList fun _ _ => True := by
  refine (proceeds_delimiter hts _).bind ?_
  intro _ m _ _
  exact proceeds_fieldsUntil hts _

theorem proceeds_typedef : Proceeds ts n typedef fun _ m => n < m := by
  refine (proceeds_keyword hts _).bind ?_
  intro _ m₁ _ hkeyword
  refine proceeds_bound.bind ?_
  intro b m₂ _ h
  obtain ⟨rfl, rfl⟩ := h
  refine (proceeds_typeRef hts (Nat.le_refl _)).bind ?_
  intro type m₃ hm₃ _
  refine (proceeds_name hts).bind ?_
  intro name m₄ hm₄ _
  refine (proceeds_annotations hts).bind ?_
  intro notes m₅ hm₅ _
  refine (proceeds_separator hts).bind ?_
  intro _ m₆ hm₆ _
  exact proceeds_pure (by omega)

theorem proceeds_constant : Proceeds ts n constant fun _ m => n < m := by
  refine (proceeds_keyword hts _).bind ?_
  intro _ m₁ _ hkeyword
  refine proceeds_bound.bind ?_
  intro b m₂ _ h
  obtain ⟨rfl, rfl⟩ := h
  refine (proceeds_typeRef hts (Nat.le_refl _)).bind ?_
  intro type m₃ hm₃ _
  refine (proceeds_name hts).bind ?_
  intro name m₄ hm₄ _
  refine (proceeds_delimiter hts _).bind ?_
  intro _ m₅ hm₅ _
  refine proceeds_bound.bind ?_
  intro b m₆ _ h
  obtain ⟨rfl, rfl⟩ := h
  refine (proceeds_skipConstant hts (Nat.le_refl _)).bind ?_
  intro _ m₇ hm₇ _
  refine (proceeds_separator hts).bind ?_
  intro _ m₈ hm₈ _
  exact proceeds_pure (by omega)

theorem proceeds_enumValueRest (values : List EnumValue) (valueName : Text) (number : Int) :
    Proceeds ts n (enumValueRest values valueName number) fun _ _ => True := by
  refine (proceeds_annotations hts).bind ?_
  intro _ m₁ _ _
  exact (proceeds_separator hts).bind fun _ _ _ _ => proceeds_pure trivial

theorem proceeds_enumValueRound (values : List EnumValue) (next : Int) :
    Proceeds ts n (enumValueRound values next) fun _ m => n < m := by
  refine (proceeds_name hts).bind ?_
  intro valueName m₁ _ hname
  refine (proceeds_accept hts _).bind ?_
  intro b m₂ hm₂ _
  split
  · refine (proceeds_expect hts (by simp)).bind ?_
    intro number m₃ hm₃ h
    refine (proceeds_intOf h.1).bind ?_
    intro i m₄ hm₄ _
    exact (proceeds_enumValueRest hts values valueName i).mono fun _ _ _ _ => by omega
  · exact (proceeds_enumValueRest hts values valueName next).mono fun _ _ _ _ => by omega

theorem proceeds_enumeration : Proceeds ts n enumeration fun _ m => n < m := by
  rw [enumeration_eq]
  refine (proceeds_keyword hts _).bind ?_
  intro start m₁ _ hkeyword
  refine (proceeds_name hts).bind ?_
  intro enumName m₂ hm₂ _
  refine (proceeds_delimiter hts _).bind ?_
  intro _ m₃ hm₃ _
  refine (proceeds_repeatUntil (fun _ => proceeds_isAt _) ?_ _).bind ?_
  · intro values m _
    exact proceeds_enumValueRound hts values.1 values.2
  · intro values m₄ hm₄ _
    refine (proceeds_delimiter hts _).bind ?_
    intro _ m₅ hm₅ _
    exact (proceeds_annotations hts).bind fun _ _ _ _ => proceeds_pure (by omega)

theorem proceeds_structRest (kind : StructKind) (start : Token) (structName : Text) :
    Proceeds ts n (structRest kind start structName) fun _ _ => True := by
  refine (proceeds_delimiter hts _).bind ?_
  intro _ m₁ _ _
  refine (proceeds_fieldsUntil hts _).bind ?_
  intro fields m₂ _ _
  exact (proceeds_annotations hts).bind fun _ _ _ _ => proceeds_pure trivial

/-- The keyword of a struct is the next token. -/
theorem proceeds_struct (kind : StructKind) : Proceeds ts n (struct kind) fun _ m => n < m := by
  rw [struct_eq]
  refine (proceeds_advance hts).bind ?_
  intro start m₁ hm₁ _
  refine (proceeds_name hts).bind ?_
  intro structName m₂ _ hname
  refine proceeds_peek.bind ?_
  intro t m₃ hm₃ _
  split
  · refine (proceeds_advance hts).bind ?_
    intro _ m₄ hm₄ _
    exact (proceeds_structRest hts kind start structName).mono fun _ _ _ _ => by omega
  · exact (proceeds_structRest hts kind start structName).mono fun _ _ _ _ => by omega

theorem proceeds_functionEnd (first : Token) (oneway : Bool) (result : Option TypeRef)
    (functionName : Text) (arguments throws : List Field) :
    Proceeds ts n (functionEnd first oneway result functionName arguments throws)
      fun _ _ => True := by
  refine (proceeds_annotations hts).bind ?_
  intro notes m₁ _ _
  exact (proceeds_separator hts).bind fun _ _ _ _ => proceeds_pure trivial

theorem proceeds_functionRest (first : Token) (oneway : Bool) (result : Option TypeRef) :
    Proceeds ts n (functionRest first oneway result) fun _ m => n < m := by
  refine (proceeds_name hts).bind ?_
  intro functionName m₁ _ hname
  refine (proceeds_fieldList hts).bind ?_
  intro arguments m₂ hm₂ _
  refine (proceeds_accept hts _).bind ?_
  intro b m₃ hm₃ _
  split
  · refine (proceeds_fieldList hts).bind ?_
    intro throws m₄ hm₄ _
    exact (proceeds_functionEnd hts first oneway result functionName arguments throws).mono
      fun _ _ _ _ => by omega
  · exact (proceeds_functionEnd hts first oneway result functionName arguments []).mono
      fun _ _ _ _ => by omega

theorem proceeds_functionResult (first : Token) (oneway : Bool) :
    Proceeds ts n (functionResult first oneway) fun _ m => n < m := by
  refine (proceeds_accept hts _).bind ?_
  intro b m₁ hm₁ _
  split
  · exact (proceeds_functionRest hts first oneway none).mono fun _ _ _ _ => by omega
  · refine proceeds_bound.bind ?_
    intro b m₂ _ h
    obtain ⟨rfl, rfl⟩ := h
    refine (proceeds_typeRef hts (Nat.le_refl _)).bind ?_
    intro type m₃ hm₃ _
    exact (proceeds_functionRest hts first oneway (some type)).mono fun _ _ _ _ => by omega

theorem proceeds_function : Proceeds ts n function fun _ m => n < m := by
  rw [function_eq]
  refine proceeds_peek.bind ?_
  intro first m₁ hm₁ _
  refine (proceeds_accept hts _).bind ?_
  intro oneway m₂ hm₂ _
  exact (proceeds_functionResult hts first oneway).mono fun _ _ _ _ => by omega

theorem proceeds_serviceRest (start : Token) (serviceName : Text) (parent : Option Text) :
    Proceeds ts n (serviceRest start serviceName parent) fun _ _ => True := by
  refine (proceeds_delimiter hts _).bind ?_
  intro _ m₁ _ _
  refine (proceeds_repeatUntil (fun _ => proceeds_isAt _) ?_ []).bind ?_
  · intro functions m _
    exact (proceeds_function hts).bind fun _ _ _ h => proceeds_pure h
  · intro functions m₂ _ _
    refine (proceeds_delimiter hts _).bind ?_
    intro _ m₃ _ _
    exact (proceeds_annotations hts).bind fun _ _ _ _ => proceeds_pure trivial

theorem proceeds_service : Proceeds ts n service fun _ m => n < m := by
  rw [service_eq]
  refine (proceeds_keyword hts _).bind ?_
  intro start m₁ _ hkeyword
  refine (proceeds_name hts).bind ?_
  intro serviceName m₂ hm₂ _
  refine (proceeds_accept hts _).bind ?_
  intro b m₃ hm₃ _
  split
  · refine (proceeds_name hts).bind ?_
    intro parent m₄ hm₄ _
    exact (proceeds_serviceRest hts start serviceName (some parent)).mono fun _ _ _ _ => by omega
  · exact (proceeds_serviceRest hts start serviceName none).mono fun _ _ _ _ => by omega

theorem proceeds_namespaceRest (d : Document) (scope target : Text) :
    Proceeds ts n (namespaceRest d scope target) fun _ _ => True :=
  (proceeds_annotations hts).bind fun _ _ _ _ => proceeds_pure trivial

/-- Whatever a declaration starts with is consumed. -/
theorem proceeds_declaration (d : Document) : Proceeds ts n (declaration d) fun _ m => n < m := by
  refine proceeds_peek.bind ?_
  intro t m _ h
  obtain ⟨rfl, ht⟩ := h
  have hadvance : ∀ k : Kind Word, t.kind = k → k ≠ .eof →
      Proceeds ts m advance fun _ m' => m < m' := by
    intro k hkind hk
    exact (proceeds_advance_of_next hts ht (hkind ▸ hk)).mono fun _ _ _ h => h.2
  split
  · next hkind =>
    refine (hadvance _ hkind (by simp)).bind ?_
    intro _ m₁ _ hlt
    exact (proceeds_string hts).bind fun _ _ _ _ => proceeds_pure (by omega)
  · next hkind =>
    refine (hadvance _ hkind (by simp)).bind ?_
    intro _ m₁ _ hlt
    exact (proceeds_string hts).bind fun _ _ _ _ => proceeds_pure (by omega)
  · next hkind =>
    refine (hadvance _ hkind (by simp)).bind ?_
    intro _ m₁ _ hlt
    refine (proceeds_name hts).bind ?_
    intro scope m₂ hm₂ _
    have hend : ∀ target k, m₂ ≤ k →
        Proceeds ts k (namespaceRest d scope target) fun _ m' => m < m' := by
      intro target k hk
      exact (proceeds_namespaceRest hts d scope target).mono fun _ _ _ _ => by omega
    refine (proceeds_nextIs _).bind ?_
    intro b m₃ hm₃ _
    split
    · refine (proceeds_string hts).bind ?_
      intro target m₄ hm₄ _
      exact hend target m₄ (by omega)
    · refine (proceeds_name hts).bind ?_
      intro target m₄ hm₄ _
      exact hend target m₄ (by omega)
  · exact (proceeds_typedef hts).bind fun _ _ _ h => proceeds_pure h
  · exact (proceeds_constant hts).bind fun _ _ _ h => proceeds_pure h
  · exact (proceeds_enumeration hts).bind fun _ _ _ h => proceeds_pure h
  · next hkind =>
    refine (proceeds_skipBlock_of_next hts ht (by simp [hkind])).bind ?_
    intro _ _ _ hlt
    exact proceeds_pure hlt
  · exact (proceeds_struct hts _).bind fun _ _ _ h => proceeds_pure h
  · exact (proceeds_struct hts _).bind fun _ _ _ h => proceeds_pure h
  · exact (proceeds_struct hts _).bind fun _ _ _ h => proceeds_pure h
  · exact (proceeds_service hts).bind fun _ _ _ h => proceeds_pure h
  · next hkind => exact (hadvance _ hkind (by simp)).bind fun _ _ _ h => proceeds_pure h
  · next hkind => exact (hadvance _ hkind (by simp)).bind fun _ _ _ h => proceeds_pure h
  · exact proceeds_fail (by simp) (List.mem_of_getElem? ht)

theorem proceeds_document : Proceeds ts n document fun _ _ => True :=
  proceeds_repeatUntil (fun _ => proceeds_atEnd) (fun d _ _ => proceeds_declaration hts d) _

end IdlBridge.Thrift.Parser
