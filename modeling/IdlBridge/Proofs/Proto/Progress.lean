import IdlBridge.Proofs.Idl.Progress
import IdlBridge.Proofs.Proto.Stages

/-! # Progress through Protocol Buffers sources

    Every parser of a declaration proceeds, on whatever tokens.  Those that loops and recursions
    rely on consume at least one token: a constant, an option, a field, a message, a declaration.
    Statements and blocks that are skipped start with a token that is not the end, so skipping
    them consumes that token at least.
-/

namespace IdlBridge.Proto.Parser

open Idl Idl.Parser

variable {ts : List Token} {n : Nat}

theorem proceeds_numberOf {t : Token} (ht : t ∈ ts) :
    Proceeds ts n (numberOf t) fun _ m => m = n := by
  unfold numberOf
  split
  · exact proceeds_pure rfl
  · split
    · exact proceeds_pure rfl
    · exact proceeds_fail (by simp) ht

/-- The bound that is taken from a stream counts the tokens ahead and the one for the end. -/
theorem proceeds_bound : Proceeds ts n bound fun b m => m = n ∧ b = ts.length - n := by
  refine proceeds_get.bind ?_
  intro s m _ h
  obtain ⟨rfl, hs⟩ := h
  have hlength := hs.length_ahead
  exact proceeds_pure ⟨rfl, by omega⟩

theorem proceeds_skipStatement : Proceeds ts n skipStatement fun _ _ => True :=
  proceeds_drop fun _ => (List.drop_suffix 1 _).trans (List.dropWhile_suffix _)

variable (hts : Ended ts)

include hts

/-- Adjacent string literals are consumed, the first of them at least if there is one. -/
theorem proceeds_strings :
    Proceeds ts n strings fun _ m => ∀ t, ts[n]? = some t → t.kind = .string → n < m := by
  intro s hs
  let parts := s.ahead.takeWhile fun t => t.kind = .string
  have hsuffix : s.ahead.drop parts.length <:+ s.ahead := List.drop_suffix _ _
  refine Or.inl ⟨_, _, _, rfl, Nat.le_add_right n _, hs.of_suffix hsuffix _, ?_⟩
  intro t ht hkind
  obtain ⟨rest, hahead⟩ := hs.exists_ahead hts ht (by simp [hkind])
  have hparts : 0 < parts.length := by
    show 0 < (s.ahead.takeWhile fun t => t.kind = .string).length
    rw [hahead, List.takeWhile_cons_of_pos (by simp [hkind])]
    exact Nat.succ_pos _
  have hpos : 0 < s.ahead.length := by
    rw [hahead]
    exact Nat.succ_pos _
  rw [List.length_drop]
  omega

/-- A statement that starts with another token than a semicolon is skipped with that token. -/
theorem proceeds_skipStatement_of_next {t : Token} (ht : ts[n]? = some t) (heof : t.kind ≠ .eof)
    (hsemicolon : t.kind ≠ .delimiter .semicolon) :
    Proceeds ts n skipStatement fun _ m => n < m := by
  apply proceeds_drop_of_next hts ht heof
  intro s rest hahead
  rw [hahead, List.dropWhile_cons_of_pos (by simp [hsemicolon])]
  exact (List.drop_suffix 1 _).trans (List.dropWhile_suffix _)

/-! ## Constants -/

section Constants

variable {value : Parser Value} (hvalue : ∀ m, n < m → Proceeds ts m value fun _ m' => m < m')

include hvalue

theorem proceeds_entryRound (es : Value.Entries) :
    Proceeds ts n (entryRound value es) fun _ m => n < m := by
  refine (proceeds_name hts).bind ?_
  intro key m₁ _ hkey
  refine (proceeds_accept hts _).bind ?_
  intro _ m₂ hm₂ _
  refine (hvalue m₂ (by omega)).bind ?_
  intro v m₃ hm₃ _
  refine (proceeds_accept hts _).bind ?_
  intro b m₄ hm₄ _
  split
  · refine (proceeds_accept hts _).bind ?_
    intro _ m₅ hm₅ _
    exact proceeds_pure (by omega)
  · exact proceeds_pure (by omega)

theorem proceeds_aggregate : Proceeds ts n (aggregate value) fun _ m => n < m := by
  refine (proceeds_delimiter hts _).bind ?_
  intro _ m hm hopen
  refine (proceeds_repeatUntil (fun _ => proceeds_isAt _) ?_ []).bind ?_
  · intro es k hk
    exact proceeds_entryRound hts (fun k' hk' => hvalue k' (by omega)) es
  · intro es k hk _
    exact (proceeds_delimiter hts _).bind fun _ _ _ _ => proceeds_pure (by omega)

theorem proceeds_constants : Proceeds ts n (constants value) fun _ m => n < m := by
  refine (proceeds_delimiter hts _).bind ?_
  intro _ m hm hopen
  refine (proceeds_repeatUntil (fun _ => proceeds_isAt _) ?_ []).bind ?_
  · intro xs k hk
    refine (hvalue k (by omega)).bind ?_
    intro v k₁ hk₁ _
    exact (proceeds_accept hts _).bind fun _ _ _ _ => proceeds_pure (by omega)
  · intro xs k hk _
    exact (proceeds_delimiter hts _).bind fun _ _ _ _ => proceeds_pure (by omega)

end Constants

/-- A constant consumes at least one token.  The bound counts the tokens ahead, and the bracket
    that opens an aggregate or a list is one token less for what is left behind it. -/
theorem proceeds_constant {bound : Nat} (hbound : ts.length - n ≤ bound) :
    Proceeds ts n (constant bound) fun _ m => n < m := by
  induction bound generalizing n with
  | zero =>
    apply proceeds_of_lt
    intro hlt
    omega
  | succ bound ih =>
    have hitem : ∀ m, n < m → Proceeds ts m (constant bound) fun _ m' => m < m' := by
      intro m hm
      exact ih (by omega)
    refine proceeds_peek.bind ?_
    intro t m _ h
    obtain ⟨rfl, ht⟩ := h
    have hadvance : t.kind ≠ .eof → Proceeds ts m advance fun _ m' => m < m' := by
      intro hkind
      exact (proceeds_advance_of_next hts ht hkind).mono fun _ _ _ h => h.2
    split
    · next hkind =>
      refine (proceeds_strings hts).bind ?_
      intro s m' _ hlt
      exact proceeds_pure (hlt t ht hkind)
    · next hkind =>
      refine (hadvance (by simp [hkind])).bind ?_
      intro _ m' _ hlt
      refine (proceeds_numberOf (List.mem_of_getElem? ht)).mono ?_
      intro _ k _ hk
      omega
    · -- Behind the bracket the smaller bound is enough for the items.
      exact proceeds_aggregate hts hitem
    · exact proceeds_constants hts hitem
    · next hkind =>
      exact (hadvance (by simp [hkind])).bind fun _ _ _ h => proceeds_pure h
    · next hkind =>
      exact (hadvance (by simp [hkind])).bind fun _ _ _ h => proceeds_pure h
    · exact proceeds_fail (by simp) (List.mem_of_getElem? ht)

/-! ## Options -/

theorem proceeds_optionName : Proceeds ts n optionName fun _ m => n < m := by
  refine (proceeds_accept hts _).bind ?_
  intro b m hm _
  split
  · refine (proceeds_name hts).bind ?_
    intro inner m₁ hm₁ _
    refine (proceeds_delimiter hts _).bind ?_
    intro _ m₂ hm₂ _
    refine proceeds_peek.bind ?_
    intro t m₃ hm₃ _
    split
    · exact (proceeds_advance hts).bind fun _ _ _ _ => proceeds_pure (by omega)
    · exact proceeds_pure (by omega)
  · exact (proceeds_name hts).mono fun _ _ _ _ => by omega

theorem proceeds_setting : Proceeds ts n setting fun _ m => n < m := by
  refine (proceeds_optionName hts).bind ?_
  intro name m _ hname
  refine (proceeds_delimiter hts _).bind ?_
  intro _ m₁ hm₁ _
  refine proceeds_bound.bind ?_
  intro b m₂ _ h
  obtain ⟨rfl, rfl⟩ := h
  exact (proceeds_constant hts (Nat.le_refl _)).bind fun _ _ _ _ => proceeds_pure (by omega)

theorem proceeds_optionStatement : Proceeds ts n optionStatement fun _ m => n < m := by
  refine (proceeds_keyword hts _).bind ?_
  intro _ m hm _
  refine (proceeds_setting hts).bind ?_
  intro s m₁ hm₁ _
  exact (proceeds_delimiter hts _).bind fun _ _ _ _ => proceeds_pure (by omega)

theorem proceeds_moreOptions {bound : Nat} (hbound : ts.length - n ≤ bound) (done : List Setting) :
    Proceeds ts n (moreOptions bound done) fun _ m => n < m := by
  induction bound generalizing n done with
  | zero =>
    apply proceeds_of_lt
    intro hlt
    omega
  | succ bound ih =>
    refine (proceeds_setting hts).bind ?_
    intro s m _ hs
    refine (proceeds_accept hts _).bind ?_
    intro b m' hm' _
    split
    · exact (ih (by omega) _).mono fun _ _ _ _ => by omega
    · exact proceeds_pure (by omega)

theorem proceeds_fieldOptions : Proceeds ts n fieldOptions fun _ _ => True := by
  refine (proceeds_accept hts _).bind ?_
  intro b m _ _
  split
  · refine proceeds_bound.bind ?_
    intro b m₁ _ h
    obtain ⟨rfl, rfl⟩ := h
    refine (proceeds_moreOptions hts (Nat.le_refl _) []).bind ?_
    intro options m₂ _ _
    exact (proceeds_delimiter hts _).bind fun _ _ _ _ => proceeds_pure trivial
  · exact proceeds_pure trivial

/-! ## Fields and enumerations -/

theorem proceeds_fieldEnd {α : Type} (make : Text → Int → List Setting → Token → α) :
    Proceeds ts n (fieldEnd make) fun _ m => n < m := by
  refine (proceeds_name hts).bind ?_
  intro fieldName m₁ _ hname
  refine (proceeds_delimiter hts _).bind ?_
  intro _ m₂ hm₂ _
  refine (proceeds_expect hts (by simp)).bind ?_
  intro number m₃ hm₃ hnumber
  refine (proceeds_fieldOptions hts).bind ?_
  intro options m₄ hm₄ _
  refine (proceeds_expect hts (by simp)).bind ?_
  intro last m₅ hm₅ _
  exact (proceeds_intOf hnumber.1).bind fun _ _ _ _ => proceeds_pure (by omega)

theorem proceeds_fieldRest (first : Token) (oneof : Option Text) :
    Proceeds ts n (fieldRest first oneof) fun _ m => n < m := by
  refine (proceeds_name hts).bind ?_
  intro typeName m₁ hm₁ _
  exact (proceeds_fieldEnd hts _).mono fun _ _ _ _ => by omega

/-- Behind the label of a field there is at least a type. -/
theorem proceeds_field (oneof : Option Text) : Proceeds ts n (field oneof) fun _ m => n < m := by
  rw [field_eq]
  refine proceeds_peek.bind ?_
  intro first m₁ hm₁ _
  apply proceeds_ite
  · intro _
    refine (proceeds_advance hts).bind ?_
    intro _ m₂ hm₂ _
    exact (proceeds_fieldRest hts first oneof).mono fun _ _ _ _ => by omega
  · intro _
    exact (proceeds_fieldRest hts first oneof).mono fun _ _ _ _ => by omega

theorem proceeds_mapField : Proceeds ts n mapField fun _ m => n < m := by
  rw [mapField_eq]
  refine (proceeds_keyword hts _).bind ?_
  intro first m _ h
  refine (proceeds_delimiter hts _).bind ?_
  intro _ m₁ hm₁ _
  refine (proceeds_name hts).bind ?_
  intro key m₂ hm₂ _
  refine (proceeds_delimiter hts _).bind ?_
  intro _ m₃ hm₃ _
  refine (proceeds_name hts).bind ?_
  intro typeName m₄ hm₄ _
  refine (proceeds_delimiter hts _).bind ?_
  intro _ m₅ hm₅ _
  exact (proceeds_fieldEnd hts _).mono fun _ _ _ _ => by omega

theorem proceeds_enumValue (e : Enum) : Proceeds ts n (enumValue e) fun _ m => n < m := by
  refine (proceeds_name hts).bind ?_
  intro valueName m₁ _ hname
  refine (proceeds_delimiter hts _).bind ?_
  intro _ m₂ hm₂ _
  refine (proceeds_expect hts (by simp)).bind ?_
  intro number m₃ hm₃ hnumber
  refine (proceeds_intOf hnumber.1).bind ?_
  intro i m₄ hm₄ _
  refine (proceeds_fieldOptions hts).bind ?_
  intro options m₅ hm₅ _
  exact (proceeds_delimiter hts _).bind fun _ _ _ _ => proceeds_pure (by omega)

theorem proceeds_enumRound (e : Enum) : Proceeds ts n (enumRound e) fun _ m => n < m := by
  refine proceeds_peek.bind ?_
  intro t m _ h
  obtain ⟨rfl, ht⟩ := h
  split
  · exact (proceeds_optionStatement hts).bind fun _ _ _ h => proceeds_pure h
  · next hkind =>
    refine (proceeds_skipStatement_of_next hts ht (by simp [hkind]) (by simp [hkind])).bind ?_
    intro _ m₁ _ hlt
    exact proceeds_pure hlt
  · next hkind =>
    refine (proceeds_advance_of_next hts ht (by simp [hkind])).bind ?_
    intro _ m₁ _ h
    exact proceeds_pure h.2
  · exact proceeds_enumValue hts e

theorem proceeds_enumeration : Proceeds ts n enumeration fun _ m => n < m := by
  rw [enumeration_eq]
  refine (proceeds_keyword hts _).bind ?_
  intro start m _ h
  refine (proceeds_name hts).bind ?_
  intro enumName m₁ hm₁ _
  refine (proceeds_delimiter hts _).bind ?_
  intro _ m₂ hm₂ _
  refine (proceeds_repeatUntil (fun _ => proceeds_isAt _) ?_ _).bind ?_
  · intro e k _
    exact proceeds_enumRound hts e
  · intro e m₃ hm₃ _
    exact (proceeds_delimiter hts _).bind fun _ _ _ _ => proceeds_pure (by omega)

/-! ## Messages -/

/-- One round of a message body. -/
theorem proceeds_messageRound {bound : Nat} (oneof : Option Text)
    (hmessage : Proceeds ts n (message bound) fun _ m => n < m)
    (hbody : ∀ k, n < k → ∀ group m,
      Proceeds ts k (messageBody bound (some group) m) fun _ _ => True)
    (m : Message) : Proceeds ts n (messageRound bound oneof m) fun _ m' => n < m' := by
  refine proceeds_peek.bind ?_
  intro t k _ h
  obtain ⟨rfl, ht⟩ := h
  -- What is skipped has a keyword in front, which is at least one token.
  have hskip : t.kind ≠ .eof → t.kind ≠ .delimiter .semicolon → Proceeds ts k (do
      skipStatement
      return m) fun _ m' => k < m' := by
    intro heof hsemicolon
    refine (proceeds_skipStatement_of_next hts ht heof hsemicolon).bind ?_
    intro _ k₁ _ hlt
    exact proceeds_pure hlt
  split
  · exact hmessage.bind fun _ _ _ h => proceeds_pure h
  · exact (proceeds_enumeration hts).bind fun _ _ _ h => proceeds_pure h
  · exact (proceeds_optionStatement hts).bind fun _ _ _ h => proceeds_pure h
  · next hkind =>
    refine (proceeds_advance_of_next hts ht (by simp [hkind])).bind ?_
    intro _ k₁ _ h
    obtain ⟨-, hlt⟩ := h
    refine (proceeds_name hts).bind ?_
    intro group k₂ hk₂ _
    refine (proceeds_delimiter hts _).bind ?_
    intro _ k₃ hk₃ _
    refine (hbody k₃ (by omega) group m).bind ?_
    intro m' k₄ hk₄ _
    exact (proceeds_delimiter hts _).bind fun _ _ _ _ => proceeds_pure (by omega)
  · exact (proceeds_mapField hts).bind fun _ _ _ h => proceeds_pure h
  · next hkind => exact hskip (by simp [hkind]) (by simp [hkind])
  · next hkind => exact hskip (by simp [hkind]) (by simp [hkind])
  · next hkind =>
    refine (proceeds_skipBlock_of_next hts ht (by simp [hkind])).bind ?_
    intro _ k₁ _ hlt
    exact proceeds_pure hlt
  · next hkind =>
    refine (proceeds_advance_of_next hts ht (by simp [hkind])).bind ?_
    intro _ k₁ _ h
    exact proceeds_pure h.2
  · exact (proceeds_field hts oneof).bind fun _ _ _ h => proceeds_pure h

/-- Messages and their bodies share a bound.  A message needs three tokens before its body, so
    the body may ask for one more than the tokens ahead. -/
theorem proceeds_message_and_body (bound : Nat) :
    (∀ n, ts.length - n ≤ bound → Proceeds ts n (message bound) fun _ m => n < m) ∧
    (∀ n oneof m, ts.length - n + 1 ≤ bound →
      Proceeds ts n (messageBody bound oneof m) fun _ _ => True) := by
  induction bound with
  | zero =>
    constructor
    · intro n hn
      apply proceeds_of_lt
      intro hlt
      omega
    · intro n oneof m hn
      omega
  | succ bound ih =>
    obtain ⟨ihmessage, ihbody⟩ := ih
    constructor
    · intro n hn
      rw [message]
      refine (proceeds_keyword hts _).bind ?_
      intro start m _ h
      refine (proceeds_name hts).bind ?_
      intro messageName m₁ hm₁ _
      refine (proceeds_delimiter hts _).bind ?_
      intro _ m₂ hm₂ _
      apply proceeds_of_lt
      intro hlt
      -- The keyword, the name and the brace have been consumed, which pays for the one more.
      refine (ihbody m₂ none _ (by omega)).bind ?_
      intro body m₃ hm₃ _
      exact (proceeds_delimiter hts _).bind fun _ _ _ _ => proceeds_pure (by omega)
    · intro n oneof m hn
      rw [messageBody_succ]
      refine proceeds_repeatUntil (fun _ => proceeds_isAt _) ?_ m
      intro m' k hk
      refine proceeds_messageRound hts oneof (ihmessage k (by omega)) ?_ m'
      intro k' hk' group m''
      apply proceeds_of_lt
      intro hlt
      exact ihbody k' _ _ (by omega)

theorem proceeds_message {bound : Nat} (hbound : ts.length - n ≤ bound) :
    Proceeds ts n (message bound) fun _ m => n < m :=
  (proceeds_message_and_body hts bound).1 n hbound

theorem proceeds_messageBody {bound : Nat} (hbound : ts.length - n + 1 ≤ bound)
    (oneof : Option Text) (m : Message) :
    Proceeds ts n (messageBody bound oneof m) fun _ _ => True :=
  (proceeds_message_and_body hts bound).2 n oneof m hbound

/-! ## Services -/

theorem proceeds_rpcType : Proceeds ts n rpcType fun _ m => n < m := by
  refine (proceeds_delimiter hts _).bind ?_
  intro _ m _ hopen
  refine (proceeds_accept hts _).bind ?_
  intro streaming m₁ hm₁ _
  refine (proceeds_name hts).bind ?_
  intro typeName m₂ hm₂ _
  exact (proceeds_delimiter hts _).bind fun _ _ _ _ => proceeds_pure (by omega)

theorem proceeds_rpcOptions : Proceeds ts n rpcOptions fun _ _ => True := by
  refine (proceeds_accept hts _).bind ?_
  intro b m _ _
  split
  · refine (proceeds_repeatUntil (fun _ => proceeds_isAt _) ?_ []).bind ?_
    · intro options k _
      refine proceeds_peek.bind ?_
      intro t k' _ h
      obtain ⟨rfl, ht⟩ := h
      split
      · exact (proceeds_optionStatement hts).bind fun _ _ _ h => proceeds_pure h
      · next hkind =>
        refine (proceeds_advance_of_next hts ht (by simp [hkind])).bind ?_
        intro _ k₁ _ h
        exact proceeds_pure h.2
      · exact proceeds_fail (by simp) (List.mem_of_getElem? ht)
    · intro options k _ _
      exact (proceeds_delimiter hts _).bind fun _ _ _ _ => proceeds_pure trivial
  · exact (proceeds_delimiter hts _).bind fun _ _ _ _ => proceeds_pure trivial

theorem proceeds_rpc : Proceeds ts n rpc fun _ m => n < m := by
  refine (proceeds_keyword hts _).bind ?_
  intro start m _ h
  refine (proceeds_name hts).bind ?_
  intro rpcName m₁ hm₁ _
  refine (proceeds_rpcType hts).bind ?_
  intro input m₂ hm₂ _
  refine (proceeds_keyword hts _).bind ?_
  intro _ m₃ hm₃ _
  refine (proceeds_rpcType hts).bind ?_
  intro output m₄ hm₄ _
  exact (proceeds_rpcOptions hts).bind fun _ _ _ _ => proceeds_pure (by omega)

theorem proceeds_service : Proceeds ts n service fun _ m => n < m := by
  refine (proceeds_keyword hts _).bind ?_
  intro start m _ h
  refine (proceeds_name hts).bind ?_
  intro serviceName m₁ hm₁ _
  refine (proceeds_delimiter hts _).bind ?_
  intro _ m₂ hm₂ _
  refine (proceeds_repeatUntil (fun _ => proceeds_isAt _) ?_ _).bind ?_
  · intro s k _
    refine proceeds_peek.bind ?_
    intro t k' _ h
    obtain ⟨rfl, ht⟩ := h
    split
    · exact (proceeds_optionStatement hts).bind fun _ _ _ h => proceeds_pure h
    · exact (proceeds_rpc hts).bind fun _ _ _ h => proceeds_pure h
    · next hkind =>
      refine (proceeds_advance_of_next hts ht (by simp [hkind])).bind ?_
      intro _ k₁ _ h
      exact proceeds_pure h.2
    · -- No other token is taken, so the loop cannot stand still.
      exact proceeds_fail (by simp) (List.mem_of_getElem? ht)
  · intro s m₃ hm₃ _
    exact (proceeds_delimiter hts _).bind fun _ _ _ _ => proceeds_pure (by omega)

/-! ## Files -/

/-- Whatever a declaration starts with is consumed. -/
theorem proceeds_declaration (f : File) : Proceeds ts n (declaration f) fun _ m => n < m := by
  refine proceeds_peek.bind ?_
  intro t m _ h
  obtain ⟨rfl, ht⟩ := h
  have hadvance : t.kind ≠ .eof → Proceeds ts m advance fun _ m' => m < m' := by
    intro hkind
    exact (proceeds_advance_of_next hts ht hkind).mono fun _ _ _ h => h.2
  split
  · next hkind =>
    refine (hadvance (by simp [hkind])).bind ?_
    intro _ m₁ _ hlt
    refine (proceeds_delimiter hts _).bind ?_
    intro _ m₂ hm₂ _
    refine (proceeds_string hts).bind ?_
    intro syntaxName m₃ hm₃ _
    exact (proceeds_delimiter hts _).bind fun _ _ _ _ => proceeds_pure (by omega)
  · next hkind =>
    refine (hadvance (by simp [hkind])).bind ?_
    intro _ m₁ _ hlt
    refine (proceeds_name hts).bind ?_
    intro package m₂ hm₂ _
    exact (proceeds_delimiter hts _).bind fun _ _ _ _ => proceeds_pure (by omega)
  · next hkind =>
    refine (hadvance (by simp [hkind])).bind ?_
    intro _ m₁ _ hlt
    -- The word for the visibility of an import may be there or not.
    have hend : ∀ k, m₁ ≤ k → Proceeds ts k (importRest f) fun _ m' => m < m' := by
      intro k hk
      refine (proceeds_string hts).bind ?_
      intro path k₁ hk₁ _
      exact (proceeds_delimiter hts _).bind fun _ _ _ _ => proceeds_pure (by omega)
    refine proceeds_peek.bind ?_
    intro t' m₂ hm₂ _
    apply proceeds_ite
    · intro _
      refine (proceeds_advance hts).bind ?_
      intro _ m₃ hm₃ _
      exact hend m₃ (by omega)
    · intro _
      exact hend m₂ hm₂
  · exact (proceeds_optionStatement hts).bind fun _ _ _ h => proceeds_pure h
  · refine proceeds_bound.bind ?_
    intro b m₁ _ h
    obtain ⟨rfl, rfl⟩ := h
    exact (proceeds_message hts (Nat.le_refl _)).bind fun _ _ _ h => proceeds_pure h
  · exact (proceeds_enumeration hts).bind fun _ _ _ h => proceeds_pure h
  · exact (proceeds_service hts).bind fun _ _ _ h => proceeds_pure h
  · next hkind =>
    refine (proceeds_skipBlock_of_next hts ht (by simp [hkind])).bind ?_
    intro _ m₁ _ hlt
    exact proceeds_pure hlt
  · next hkind => exact (hadvance (by simp [hkind])).bind fun _ _ _ h => proceeds_pure h
  · exact proceeds_fail (by simp) (List.mem_of_getElem? ht)

theorem proceeds_file : Proceeds ts n file fun _ _ => True :=
  proceeds_repeatUntil (fun _ => proceeds_atEnd) (fun f _ _ => proceeds_declaration hts f) _

end IdlBridge.Proto.Parser
