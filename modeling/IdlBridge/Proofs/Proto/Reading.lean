import IdlBridge.Proofs.Proto.Constants

/-! # Reading what the grammar spells

    Each parser reads every spelling of its declaration back.  A declaration ends with its own
    delimiter, so nothing that follows it goes on with it, and a loop sees by the first token of a
    part which one it is.  Messages nest like constants, and again the induction carries the claim
    for every bound that is no smaller than the number of atoms.
-/

namespace IdlBridge.Proto.Parser

open Idl Idl.Parser

variable {rest us vs : List Atom}

/-! ## Options -/

/-- In front of an equals sign. -/
theorem takes_optionName {n : Text} (h : OptionName n us) :
    Takes optionName (us ++ .mark .equals :: rest) (.mark .equals :: rest) (· = n) := by
  cases h with
  | plain n =>
    have hparen : nextKind (.word n :: .mark .equals :: rest) ≠ .delimiter .leftParen :=
      kind_word_ne n rfl
    exact (takes_accept_of_ne hparen).bind_eq (takes_name n)
  | custom n =>
    refine (takes_accept_delimiter .leftParen).bind_eq ?_
    refine (takes_name n).bind_eq ?_
    refine (takes_delimiter .rightParen).bind_eq ?_
    -- A name in parentheses may go on behind them, but here an equals sign follows.
    refine takes_peek.bind ?_
    intro t ht
    apply takes_if_neg
    · rw [ht.kind]
      rintro ⟨hkind, -⟩
      cases hkind
    · exact takes_pure rfl
  | part n hpoint hname =>
    refine (takes_accept_delimiter .leftParen).bind_eq ?_
    refine (takes_name n).bind_eq ?_
    refine (takes_delimiter .rightParen).bind_eq ?_
    refine takes_peek.bind ?_
    intro t ht
    apply takes_if_pos
    · rw [ht.kind, ht.value]
      exact ⟨kind_word hname, hpoint⟩
    · refine takes_advance.bind ?_
      intro _ _
      apply takes_pure
      rw [ht.value]
      rfl

theorem takes_setting {s : Setting} (h : s.Written us) (hrest : nextKind rest ≠ .string) :
    Takes setting (us ++ rest) rest (· = s) := by
  cases h with
  | mk hname hvalue =>
    rw [List.append_assoc, List.cons_append]
    refine (takes_optionName hname).bind_eq ?_
    refine (takes_delimiter .equals).bind_eq ?_
    refine takes_bound.bind_eq ?_
    exact (takes_constant hvalue (by simp; omega) hrest).bind_eq (takes_pure rfl)

theorem takes_optionStatement {s : Setting} (h : s.Stated us) :
    Takes optionStatement (us ++ rest) rest (· = s) := by
  cases h with
  | mk h =>
    rw [List.cons_append, List.append_assoc, List.singleton_append]
    refine (takes_keyword .option).bind ?_
    intro _ _
    refine (takes_setting h (by simp)).bind_eq ?_
    exact (takes_delimiter .semicolon).bind_eq (takes_pure rfl)

theorem takes_moreOptions {ss : List Setting} (h : SettingsListed ss us) :
    ∀ {bound} (done : List Setting), us.length ≤ bound →
      Takes (moreOptions bound done) (us ++ .mark .rightBracket :: rest)
        (.mark .rightBracket :: rest) (· = done ++ ss) := by
  have hpos : ∀ {s : Setting} {us : List Atom}, s.Written us → 0 < us.length := by
    intro s us h
    cases h
    simp only [List.length_append, List.length_cons]
    omega
  induction h with
  | one h =>
    intro bound done hbound
    obtain ⟨bound, rfl⟩ := Nat.exists_eq_succ_of_ne_zero
      (Nat.ne_zero_of_lt (Nat.lt_of_lt_of_le (hpos h) hbound))
    refine (takes_setting h (by simp)).bind_eq ?_
    exact (takes_accept_of_ne (by simp)).bind_eq (takes_pure rfl)
  | @cons s ss us vs h hrest ih =>
    intro bound done hbound
    simp only [List.length_append, List.length_cons] at hbound
    -- The comma pays for the round.
    obtain ⟨bound, rfl⟩ := Nat.exists_eq_succ_of_ne_zero (by omega : bound ≠ 0)
    have hmore := ih (done ++ [s]) (by omega : vs.length ≤ bound)
    rw [List.append_assoc] at hmore
    rw [List.append_assoc, List.cons_append]
    refine (takes_setting h (by simp)).bind_eq ?_
    exact (takes_accept_delimiter .comma).bind_eq hmore

theorem takes_fieldOptions {ss : List Setting} (h : FieldOptions ss us)
    (hrest : nextKind rest ≠ .delimiter .leftBracket) :
    Takes fieldOptions (us ++ rest) rest (· = ss) := by
  cases h with
  | none => exact (takes_accept_of_ne hrest).bind_eq (takes_pure rfl)
  | bracketed h =>
    rw [List.cons_append, List.append_assoc, List.singleton_append]
    refine (takes_accept_delimiter .leftBracket).bind_eq ?_
    refine takes_bound.bind_eq ?_
    refine (takes_moreOptions h [] (by simp; omega)).bind_eq ?_
    exact (takes_delimiter .rightBracket).bind_eq (takes_pure rfl)

/-! ## Skipped statements -/

theorem takes_skipStatement {k : Word} (h : SkippedStatement k us) :
    Takes skipStatement (us ++ rest) rest (· = ()) := by
  cases h with
  | @mk us h =>
    rw [List.cons_append, List.append_assoc, List.singleton_append]
    intro s hs
    obtain ⟨ahead, eof, last⟩ := s
    obtain ⟨hahead, heof, hlast⟩ := hs
    cases hahead with
    | @cons t _ ts _ ht hts =>
      have hbehind := dropWhile_of_without h hts
      cases hopen : ts.dropWhile fun t => t.kind != .delimiter .semicolon with
      | nil =>
        rw [hopen] at hbehind
        cases hbehind
      | cons semicolon behind =>
        rw [hopen] at hbehind
        cases hbehind with
        | cons _ hbehind =>
          refine ⟨(), ⟨behind, eof, last⟩, ?_, rfl, hbehind, heof, hlast⟩
          -- The first semicolon ends the statement, as there is none in what is skipped.
          have hdropped : ((t :: ts).dropWhile fun t => t.kind != .delimiter .semicolon).drop 1 =
              behind := by
            rw [List.dropWhile_cons_of_pos (by simp [ht.kind]), hopen]
            rfl
          rw [← hdropped]
          rfl

theorem takes_extendBlock (h : ExtendBlock us) : Takes skipBlock (us ++ rest) rest (· = ()) := by
  cases h with
  | mk hheader hbody =>
    rw [List.cons_append, List.append_assoc, List.cons_append, List.append_assoc,
      List.singleton_append]
    exact takes_skipBlock hheader hbody

/-! ## Fields and enumerations -/

/-- What fields of both kinds have behind their types. -/
theorem takes_fieldEnd {fieldName : Text} {number : Int} {options : List Setting}
    (h : NumberedWritten fieldName number options us) (rest : List Atom) {β : Type}
    (make : Text → Int → List Setting → Token → β) :
    Takes (fieldEnd make) (us ++ rest) rest
      (fun b => ∃ last, last.trailing = [] ∧ b = make fieldName number options last) := by
  cases h with
  | @mk t us hnumber hoptions =>
    simp only [List.cons_append, List.append_assoc, List.nil_append]
    refine (takes_name fieldName).bind_eq ?_
    refine (takes_delimiter .equals).bind_eq ?_
    refine (takes_expect (u := .number t) rfl).bind ?_
    intro token htoken
    refine (takes_fieldOptions hoptions (by simp)).bind_eq ?_
    refine (takes_expect (u := .mark .semicolon) rfl).bind ?_
    intro last hlast
    have hint : Numeral.intLiteral? token.value = some number := by
      rw [htoken.value]
      exact hnumber
    exact (takes_intOf hint).bind_eq (takes_pure ⟨last, hlast.trailing, rfl⟩)

theorem commentAround_eq_nil {first last : Token} (hfirst : first.comment = [])
    (hlast : last.trailing = []) : commentAround first last = [] := by
  rw [commentAround, hfirst]
  exact hlast

/-- A plain field, whatever its label is. -/
theorem takes_field {f : Field} {group : Option Text} (hmap : f.mapKey = none)
    (h : f.Written group us) : Takes (field group) (us ++ rest) rest (· = f) := by
  obtain ⟨typeName, fieldName, number, repeated, mapKey, oneof, options, comment⟩ := f
  cases hmap
  cases h with
  | map hkey _ _ _ _ _ => cases hkey
  | @plain label us _ hgroup hcomment hlabel htype hend =>
    cases hgroup
    cases hcomment
    rw [List.append_assoc, List.cons_append]
    -- The labels differ in their first token only.
    have hread : ∀ first : Token, first.comment = [] →
        decide (first.kind = .keyword .repeated) = repeated →
        Takes (fieldRest first oneof)
          (.word typeName :: (us ++ rest)) rest
          (· = ⟨typeName, fieldName, number, repeated, none, oneof, options, []⟩) := by
      intro first hfirst hrepeated
      have hend := takes_fieldEnd hend rest fun name number options last =>
        (⟨typeName, name, number, decide (first.kind = .keyword .repeated), none, oneof, options,
          commentAround first last⟩ : Field)
      refine (takes_name typeName).bind_eq (Takes.mono hend ?_)
      rintro b ⟨last, hlast, rfl⟩
      rw [hrepeated, commentAround_eq_nil hfirst hlast]
    have hlabelled : ∀ w : Word, w = .repeated ∨ w = .optional ∨ w = .required →
        decide (w = .repeated) = repeated →
        Takes (field oneof) (.keyword w :: .word typeName :: (us ++ rest)) rest
          (· = ⟨typeName, fieldName, number, repeated, none, oneof, options, []⟩) := by
      intro w hw hrepeated
      refine takes_peek.bind ?_
      intro first hfirst
      have hkind : first.kind = .keyword w := hfirst.kind
      apply takes_if_pos
      · rw [hkind]
        rcases hw with rfl | rfl | rfl
        · exact Or.inl rfl
        · exact Or.inr (Or.inl rfl)
        · exact Or.inr (Or.inr rfl)
      · refine takes_advance.bind ?_
        intro _ _
        apply hread first hfirst.comment
        rw [hkind, ← hrepeated]
        simp
    cases hlabel with
    | none =>
      refine takes_peek.bind ?_
      intro first hfirst
      have hkind : first.kind = .ident := hfirst.kind.trans (kind_word htype)
      apply takes_if_neg
      · rw [hkind]
        simp
      · exact hread first hfirst.comment (by simp [hkind])
    | optional => exact hlabelled .optional (Or.inr (Or.inl rfl)) rfl
    | required => exact hlabelled .required (Or.inr (Or.inr rfl)) rfl
    | repeated => exact hlabelled .repeated (Or.inl rfl) rfl

theorem takes_mapField {f : Field} {key : Text} (hmap : f.mapKey = some key)
    (h : f.Written none us) : Takes mapField (us ++ rest) rest (· = f) := by
  obtain ⟨typeName, fieldName, number, repeated, mapKey, oneof, options, comment⟩ := f
  cases hmap
  cases h with
  | plain hnone _ _ _ _ _ => cases hnone
  | @map key us hkey hgroup hnone hcomment hrepeated hend =>
    cases hkey
    cases hgroup
    cases hcomment
    cases hrepeated
    simp only [List.cons_append]
    refine (takes_keyword .map).bind ?_
    intro first hfirst
    refine (takes_delimiter .leftAngle).bind_eq ?_
    refine (takes_name key).bind_eq ?_
    refine (takes_delimiter .comma).bind_eq ?_
    refine (takes_name typeName).bind_eq ?_
    refine (takes_delimiter .rightAngle).bind_eq ?_
    have hend := takes_fieldEnd hend rest fun name number options last =>
      (⟨typeName, name, number, false, some key, none, options, commentAround first last⟩ : Field)
    -- Neither the first token nor the last one has a comment, so the field has none.
    refine Takes.mono hend ?_
    rintro b ⟨last, hlast, rfl⟩
    rw [commentAround_eq_nil hfirst.comment hlast]

/-- The value of an enumeration. -/
theorem takes_enumValue {v : EnumValue} (h : NumberedWritten v.name v.number v.options us)
    (rest : List Atom) (e : Enum) :
    Takes (enumValue e)
      (us ++ rest) rest (· = { e with values := e.values ++ [v] }) := by
  cases h with
  | @mk t us hnumber hoptions =>
    simp only [List.cons_append, List.append_assoc, List.nil_append]
    refine (takes_name v.name).bind_eq ?_
    refine (takes_delimiter .equals).bind_eq ?_
    refine (takes_expect (u := .number t) rfl).bind ?_
    intro token htoken
    have hint : Numeral.intLiteral? token.value = some v.number := by
      rw [htoken.value]
      exact hnumber
    refine (takes_intOf hint).bind_eq ?_
    refine (takes_fieldOptions hoptions (by simp)).bind_eq ?_
    exact (takes_delimiter .semicolon).bind_eq (takes_pure rfl)

/-- What a part starts with, so that the loop over parts goes on. -/
def Starts (us : List Atom) : Prop :=
  (nextKind us).isName = true ∨ nextKind us = .delimiter .semicolon

theorem Starts.ne (h : Starts us) :
    nextKind us ≠ .delimiter .rightBrace ∧ nextKind us ≠ .eof := by
  rcases h with h | h
  · constructor
    · intro hkind
      rw [hkind] at h
      cases h
    · intro hkind
      rw [hkind] at h
      cases h
  · rw [h]
    simp

theorem starts_stated {s : Setting} (h : s.Stated us) : nextKind us = .keyword .option := by
  cases h
  rfl

theorem starts_skipped {k : Word} (h : SkippedStatement k us) : nextKind us = .keyword k := by
  cases h
  rfl

theorem starts_extend (h : ExtendBlock us) : nextKind us = .keyword .extend := by
  cases h
  rfl

theorem starts_enumPart {part : EnumPart} (h : part.Written us) : Starts us := by
  cases h with
  | value _ h =>
    cases h
    exact Or.inl (isName_word _)
  | option h => exact Or.inl (by rw [starts_stated h]; rfl)
  | reserved h => exact Or.inl (by rw [starts_skipped h]; rfl)
  | semicolon => exact Or.inr rfl

theorem takes_enumPart {part : EnumPart} (h : part.Written us) (e : Enum) :
    Takes (enumRound e) (us ++ rest) rest (· = part.addTo e) := by
  refine takes_peek_kind.bind ?_
  intro t ht
  cases h with
  | @value v us hname h =>
    have htakes := takes_enumValue h rest e
    cases h with
    | mk hnumber hoptions =>
      rw [ht, List.cons_append, nextKind_cons, kind_word hname]
      exact htakes
  | option h =>
    rw [ht, nextKind_append (by simp [starts_stated h]), starts_stated h]
    exact (takes_optionStatement h).bind_eq (takes_pure rfl)
  | reserved h =>
    rw [ht, nextKind_append (by simp [starts_skipped h]), starts_skipped h]
    exact (takes_skipStatement h).bind_eq (takes_pure rfl)
  | semicolon =>
    rw [ht]
    exact takes_advance.bind fun _ _ => takes_pure rfl

theorem takes_enumeration {e : Enum} (h : e.Written us) :
    Takes enumeration (us ++ rest) rest (· = e) := by
  cases h with
  | @mk enumName parts us hparts =>
    simp only [List.cons_append, List.append_assoc, List.nil_append]
    rw [enumeration_eq]
    refine (takes_keyword .enum).bind ?_
    intro start hstart
    rw [hstart.comment]
    refine (takes_name enumName).bind_eq ?_
    refine (takes_delimiter .leftBrace).bind_eq ?_
    refine (takes_each (F := fun _ => True) hparts
      (fun before => before.foldl EnumPart.addTo ⟨enumName, [], [], []⟩) ?_ trivial ?_).bind_eq
      ((takes_delimiter .rightBrace).bind_eq (takes_pure rfl))
    · intro part u hu
      exact ⟨trivial, (starts_enumPart hu).ne⟩
    · intro before part after _ u vs hu _
      rw [List.foldl_append]
      exact takes_enumPart hu _

/-! ## Messages -/

theorem starts_messageSkip (h : MessageSkip us) : Starts us := by
  cases h with
  | reserved h => exact Or.inl (by rw [starts_skipped h]; rfl)
  | extensions h => exact Or.inl (by rw [starts_skipped h]; rfl)
  | extend h => exact Or.inl (by rw [starts_extend h]; rfl)
  | semicolon => exact Or.inr rfl

/-- Whatever is skipped leaves the message alone. -/
theorem takes_messageSkip (h : MessageSkip us) (bound : Nat) (oneof : Option Text) (m : Message) :
    Takes (messageRound bound oneof m) (us ++ rest) rest (· = m) := by
  refine takes_peek_kind.bind ?_
  intro t ht
  cases h with
  | reserved h =>
    rw [ht, nextKind_append (by simp [starts_skipped h]), starts_skipped h]
    exact (takes_skipStatement h).bind_eq (takes_pure rfl)
  | extensions h =>
    rw [ht, nextKind_append (by simp [starts_skipped h]), starts_skipped h]
    exact (takes_skipStatement h).bind_eq (takes_pure rfl)
  | extend h =>
    rw [ht, nextKind_append (by simp [starts_extend h]), starts_extend h]
    exact (takes_extendBlock h).bind_eq (takes_pure rfl)
  | semicolon =>
    rw [ht]
    exact takes_advance.bind fun _ _ => takes_pure rfl

/-- A plain field starts with its label or with the name of its type. -/
theorem starts_field {f : Field} {group : Option Text} (hmap : f.mapKey = none)
    (h : f.Written group us) (vs : List Atom) :
    nextKind (us ++ vs) = .ident ∨ nextKind (us ++ vs) = .keyword .optional ∨
      nextKind (us ++ vs) = .keyword .required ∨ nextKind (us ++ vs) = .keyword .repeated := by
  cases h with
  | map hkey _ _ _ _ _ =>
    rw [hmap] at hkey
    cases hkey
  | plain _ _ _ hlabel htype _ =>
    obtain ⟨typeName, fieldName, number, repeated, mapKey, oneof, options, comment⟩ := f
    cases hlabel with
    | none => exact Or.inl (kind_word htype)
    | optional => exact Or.inr (Or.inl rfl)
    | required => exact Or.inr (Or.inr (Or.inl rfl))
    | repeated => exact Or.inr (Or.inr (Or.inr rfl))

theorem takes_fieldRound {f : Field} {group : Option Text} (hmap : f.mapKey = none)
    (h : f.Written group us) (bound : Nat) (m : Message) :
    Takes (messageRound bound group m) (us ++ rest) rest
      (· = { m with fields := m.fields ++ [f] }) := by
  have hend : Takes (do return { m with fields := m.fields ++ [← field group] }) (us ++ rest) rest
      (· = { m with fields := m.fields ++ [f] }) := (takes_field hmap h).bind_eq (takes_pure rfl)
  refine takes_peek_kind.bind ?_
  intro t ht
  rw [ht]
  rcases starts_field hmap h rest with hkind | hkind | hkind | hkind <;> rw [hkind] <;> exact hend

/-- The parts of a group of alternatives. -/
theorem takes_groupBody {group : Text} {parts : List GroupPart}
    (h : Each (GroupPart.Written group) parts us) {bound : Nat} (hbound : 0 < bound) (m : Message) :
    Takes (messageBody bound (some group) m) (us ++ .mark .rightBrace :: rest)
      (.mark .rightBrace :: rest) (· = parts.foldl GroupPart.addTo m) := by
  obtain ⟨bound, rfl⟩ := Nat.exists_eq_succ_of_ne_zero (Nat.ne_of_gt hbound)
  rw [messageBody_succ]
  refine takes_each (F := fun _ => True) h (fun before => before.foldl GroupPart.addTo m) ?_ trivial
    ?_
  · -- No part of a group starts with the brace that closes it.
    intro part u hu
    refine ⟨trivial, Starts.ne ?_⟩
    cases hu with
    | skipped h => exact starts_messageSkip h
    | field hmap h =>
      have hstart := starts_field hmap h []
      rw [List.append_nil] at hstart
      rcases hstart with hkind | hkind | hkind | hkind <;> exact Or.inl (by rw [hkind]; rfl)
  · intro before part after _ u vs hu _
    rw [List.foldl_append]
    cases hu with
    | skipped h => exact takes_messageSkip h bound _ _
    | field hmap h => exact takes_fieldRound hmap h bound _

theorem nextKind_message {m : Message} (h : m.Written us) : nextKind us = .keyword .message := by
  cases h
  rfl

theorem nextKind_enum {e : Enum} (h : e.Written us) : nextKind us = .keyword .enum := by
  cases h
  rfl

/-- A field is a map field or a plain one. -/
theorem mapKey_of_written {f : Field} (h : f.Written none us) :
    f.mapKey = none ∨ ∃ key, f.mapKey = some key ∧ nextKind us = .keyword .map := by
  cases h with
  | plain hmap _ _ _ _ _ => exact Or.inl hmap
  | map hkey _ _ _ _ _ => exact Or.inr ⟨_, hkey, rfl⟩

theorem starts_messagePart {part : MessagePart}
    (h : MessagePart.Written Message.Written part us) : Starts us := by
  cases h with
  | field h =>
    rcases mapKey_of_written h with hmap | ⟨key, -, hkind⟩
    · have hstart := starts_field hmap h []
      rw [List.append_nil] at hstart
      rcases hstart with hkind | hkind | hkind | hkind <;> exact Or.inl (by rw [hkind]; rfl)
    · exact Or.inl (by rw [hkind]; rfl)
  | group _ => exact Or.inl rfl
  | message h => exact Or.inl (by rw [nextKind_message h]; rfl)
  | enum h => exact Or.inl (by rw [nextKind_enum h]; rfl)
  | option h => exact Or.inl (by rw [starts_stated h]; rfl)
  | skipped h => exact starts_messageSkip h

/-- One part of a message, when the messages in it are read. -/
theorem takes_messagePart {part : MessagePart} (h : MessagePart.Written Message.Written part us)
    {bound : Nat} (hbound : us.length ≤ bound)
    (hmessage : ∀ n us, Message.Written n us → us.length ≤ bound → ∀ rest,
      Takes (message bound) (us ++ rest) rest (· = n)) (m : Message) :
    Takes (messageRound bound none m) (us ++ rest) rest (· = part.addTo m) := by
  cases h with
  | skipped h => exact takes_messageSkip h bound none m
  | @field f us h =>
    rcases mapKey_of_written h with hmap | ⟨key, hkey, hkind⟩
    · exact takes_fieldRound hmap h bound m
    · refine takes_peek_kind.bind ?_
      intro t ht
      rw [ht, nextKind_append (by simp [hkind]), hkind]
      exact (takes_mapField hkey h).bind_eq (takes_pure rfl)
  | @group groupName parts us h =>
    refine takes_peek_kind.bind ?_
    intro t ht
    rw [ht]
    simp only [List.cons_append, List.append_assoc, List.nil_append]
    -- The group is written with more than one atom, so there is a bound for its body.
    have hpos : 0 < bound := by
      simp only [List.length_cons] at hbound
      omega
    refine takes_advance.bind ?_
    intro _ _
    refine (takes_name groupName).bind_eq ?_
    refine (takes_delimiter .leftBrace).bind_eq ?_
    refine (takes_groupBody h hpos m).bind_eq ?_
    exact (takes_delimiter .rightBrace).bind_eq (takes_pure rfl)
  | message h =>
    refine takes_peek_kind.bind ?_
    intro t ht
    rw [ht, nextKind_append (by simp [nextKind_message h]), nextKind_message h]
    exact (hmessage _ _ h hbound rest).bind_eq (takes_pure rfl)
  | enum h =>
    refine takes_peek_kind.bind ?_
    intro t ht
    rw [ht, nextKind_append (by simp [nextKind_enum h]), nextKind_enum h]
    exact (takes_enumeration h).bind_eq (takes_pure rfl)
  | option h =>
    refine takes_peek_kind.bind ?_
    intro t ht
    rw [ht, nextKind_append (by simp [starts_stated h]), starts_stated h]
    exact (takes_optionStatement h).bind_eq (takes_pure rfl)

theorem takes_message (bound : Nat) : ∀ (m : Message) (us : List Atom), m.Written us →
    us.length ≤ bound → ∀ rest, Takes (message bound) (us ++ rest) rest (· = m) := by
  induction bound using Nat.strongRecOn with
  | ind bound ih =>
    intro m us h hbound rest
    cases h with
    | @mk messageName parts us hparts =>
      simp only [List.length_cons, List.length_append] at hbound
      -- One step of the bound goes to the message and one to its body.
      obtain ⟨bound, rfl⟩ : ∃ n, bound = n + 2 := ⟨bound - 2, by omega⟩
      have hmessage : ∀ n us, Message.Written n us → us.length ≤ bound → ∀ rest,
          Takes (message bound) (us ++ rest) rest (· = n) := ih bound (by omega)
      rw [message]
      simp only [List.cons_append, List.append_assoc, List.nil_append]
      refine (takes_keyword .message).bind ?_
      intro start hstart
      rw [hstart.comment]
      refine (takes_name messageName).bind_eq ?_
      refine (takes_delimiter .leftBrace).bind_eq ?_
      rw [messageBody_succ]
      refine (takes_each (F := fun _ => True) hparts.bounded
        (fun before => before.foldl MessagePart.addTo ⟨messageName, [], [], [], [], []⟩) ?_ trivial
        ?_).bind_eq ((takes_delimiter .rightBrace).bind_eq (takes_pure rfl))
      · intro part u hu
        exact ⟨trivial, (starts_messagePart hu.1).ne⟩
      · intro before part after _ u vs hu _
        rw [List.foldl_append]
        exact takes_messagePart hu.1 (by omega) hmessage _

/-! ## Services -/

theorem takes_rpcType {streaming : Bool} {type : Text} (h : RpcType streaming type us) :
    Takes rpcType (us ++ rest) rest (· = (streaming, type)) := by
  cases h with
  | mk hname =>
    have hend : Takes (do let typeName ← name; delimiter .rightParen; return (streaming, typeName))
        (.word type :: .mark .rightParen :: rest) rest (· = (streaming, type)) := by
      refine (takes_name type).bind_eq ?_
      exact (takes_delimiter .rightParen).bind_eq (takes_pure rfl)
    refine (takes_delimiter .leftParen).bind_eq ?_
    cases streaming with
    | true => exact (takes_accept_keyword .stream).bind_eq hend
    | false =>
      -- Only the word `stream` itself would be taken for the mark of a stream.
      exact Takes.bind_eq (takes_accept_of_ne fun hkind => hname (eq_spelling_of_kind_word hkind))
        hend

theorem takes_rpcEnd {options : List Setting} (h : RpcEnd options us) :
    Takes rpcOptions (us ++ rest) rest (· = options) := by
  cases h with
  | semicolon =>
    refine (takes_accept_of_ne (by simp)).bind_eq ?_
    exact (takes_delimiter .semicolon).bind_eq (takes_pure rfl)
  | @block parts us hparts =>
    simp only [List.cons_append, List.append_assoc, List.nil_append]
    refine (takes_accept_delimiter .leftBrace).bind_eq ?_
    refine (takes_each (F := fun _ => True) hparts
      (fun before => before.foldl OptionPart.addTo []) ?_ trivial ?_).bind_eq
      ((takes_delimiter .rightBrace).bind_eq (takes_pure rfl))
    · intro part u hu
      refine ⟨trivial, Starts.ne ?_⟩
      cases hu with
      | option h => exact Or.inl (by rw [starts_stated h]; rfl)
      | semicolon => exact Or.inr rfl
    · intro before part after _ u vs hu _
      rw [List.foldl_append]
      refine takes_peek_kind.bind ?_
      intro t ht
      cases hu with
      | option h =>
        rw [ht, nextKind_append (by simp [starts_stated h]), starts_stated h]
        exact (takes_optionStatement h).bind_eq (takes_pure rfl)
      | semicolon =>
        rw [ht]
        exact takes_advance.bind fun _ _ => takes_pure rfl

theorem takes_rpc {r : Rpc} (h : r.Written us) : Takes rpc (us ++ rest) rest (· = r) := by
  cases h with
  | @mk input output us hinput houtput hend hcomment =>
    obtain ⟨rpcName, inputType, outputType, client, server, options, comment⟩ := r
    cases hcomment
    simp only [List.cons_append, List.append_assoc]
    refine (takes_keyword .rpc).bind ?_
    intro start hstart
    refine (takes_name rpcName).bind_eq ?_
    refine (takes_rpcType hinput).bind_eq ?_
    refine (takes_keyword .returns).bind ?_
    intro _ _
    refine (takes_rpcType houtput).bind_eq ?_
    refine (takes_rpcEnd hend).bind_eq (takes_pure ?_)
    rw [Token.remark, hstart.comment, hstart.trailing]
    rfl

theorem takes_service {s : Service} (h : s.Written us) :
    Takes service (us ++ rest) rest (· = s) := by
  cases h with
  | @mk serviceName parts us hparts =>
    simp only [List.cons_append, List.append_assoc, List.nil_append]
    unfold service
    refine (takes_keyword .service).bind ?_
    intro start hstart
    rw [hstart.comment]
    refine (takes_name serviceName).bind_eq ?_
    refine (takes_delimiter .leftBrace).bind_eq ?_
    have hrpc : ∀ {r : Rpc} {us : List Atom}, r.Written us → nextKind us = .keyword .rpc := by
      intro r us h
      cases h
      rfl
    refine (takes_each (F := fun _ => True) hparts
      (fun before => before.foldl ServicePart.addTo ⟨serviceName, [], [], []⟩)
        ?_ trivial ?_).bind_eq
      ((takes_delimiter .rightBrace).bind_eq (takes_pure rfl))
    · intro part u hu
      refine ⟨trivial, Starts.ne ?_⟩
      cases hu with
      | rpc h => exact Or.inl (by rw [hrpc h]; rfl)
      | option h => exact Or.inl (by rw [starts_stated h]; rfl)
      | semicolon => exact Or.inr rfl
    · intro before part after _ u vs hu _
      rw [List.foldl_append]
      refine takes_peek_kind.bind ?_
      intro t ht
      cases hu with
      | rpc h =>
        rw [ht, nextKind_append (by simp [hrpc h]), hrpc h]
        exact (takes_rpc h).bind_eq (takes_pure rfl)
      | option h =>
        rw [ht, nextKind_append (by simp [starts_stated h]), starts_stated h]
        exact (takes_optionStatement h).bind_eq (takes_pure rfl)
      | semicolon =>
        rw [ht]
        exact takes_advance.bind fun _ _ => takes_pure rfl

/-! ## Files -/

theorem nextKind_service {s : Service} (h : s.Written us) : nextKind us = .keyword .service := by
  cases h
  rfl

theorem takes_import {f : File} {path : Text} (h : ImportMark us) :
    Takes (declaration f)
      (.keyword .importWord :: (us ++ .string path :: .mark .semicolon :: rest)) rest
      (· = { f with imports := f.imports ++ [path] }) := by
  have hend : Takes (importRest f) (.string path :: .mark .semicolon :: rest)
      rest (· = { f with imports := f.imports ++ [path] }) := by
    refine (takes_string path).bind_eq ?_
    exact (takes_delimiter .semicolon).bind_eq (takes_pure rfl)
  -- The two words are names to the lexer, so they are told by their text.
  have hmarked : ∀ w : Text, w = "public" ∨ w = "weak" → IsName w →
      Takes (declaration f)
        (.keyword .importWord :: .word w :: .string path :: .mark .semicolon :: rest) rest
        (· = { f with imports := f.imports ++ [path] }) := by
    intro w hw hname
    refine takes_peek.bind ?_
    intro t ht
    rw [ht.kind]
    refine takes_advance.bind ?_
    intro _ _
    refine takes_peek.bind ?_
    intro t ht
    apply takes_if_pos
    · rw [ht.kind, ht.value]
      exact ⟨kind_word hname, hw⟩
    · refine takes_advance.bind ?_
      intro _ _
      exact hend
  cases h with
  | none =>
    refine takes_peek.bind ?_
    intro t ht
    rw [ht.kind]
    refine takes_advance.bind ?_
    intro _ _
    refine takes_peek.bind ?_
    intro t ht
    apply takes_if_neg
    · rw [ht.kind]
      rintro ⟨hkind, -⟩
      cases hkind
    · exact hend
  | isPublic => exact hmarked "public" (Or.inl rfl) (by decide)
  | isWeak => exact hmarked "weak" (Or.inr rfl) (by decide)

theorem starts_filePart {part : FilePart} (h : part.Written us) : Starts us := by
  cases h with
  | syntaxName _ => exact Or.inl rfl
  | package _ => exact Or.inl rfl
  | importFile _ _ => exact Or.inl rfl
  | option h => exact Or.inl (by rw [starts_stated h]; rfl)
  | message h => exact Or.inl (by rw [nextKind_message h]; rfl)
  | enum h => exact Or.inl (by rw [nextKind_enum h]; rfl)
  | service h => exact Or.inl (by rw [nextKind_service h]; rfl)
  | extend h => exact Or.inl (by rw [starts_extend h]; rfl)
  | semicolon => exact Or.inr rfl

/-- One part of a file. -/
theorem takes_filePart {part : FilePart} (h : part.Written us) (f : File) :
    Takes (declaration f) (us ++ rest) rest (· = part.addTo f) := by
  cases h with
  | syntaxName t =>
    refine takes_peek.bind ?_
    intro t' ht
    rw [ht.kind]
    refine takes_advance.bind ?_
    intro _ _
    refine (takes_delimiter .equals).bind_eq ?_
    refine (takes_string t).bind_eq ?_
    exact (takes_delimiter .semicolon).bind_eq (takes_pure rfl)
  | package n =>
    refine takes_peek.bind ?_
    intro t' ht
    rw [ht.kind]
    refine takes_advance.bind ?_
    intro _ _
    refine (takes_name n).bind_eq ?_
    exact (takes_delimiter .semicolon).bind_eq (takes_pure rfl)
  | importFile path hmark =>
    rw [List.cons_append, List.append_assoc, List.cons_append, List.singleton_append]
    exact takes_import hmark
  | option h =>
    refine takes_peek_kind.bind ?_
    intro t ht
    rw [ht, nextKind_append (by simp [starts_stated h]), starts_stated h]
    exact (takes_optionStatement h).bind_eq (takes_pure rfl)
  | message h =>
    refine takes_peek_kind.bind ?_
    intro t ht
    rw [ht, nextKind_append (by simp [nextKind_message h]), nextKind_message h]
    -- The bound of a message is the number of atoms from its keyword on.
    refine takes_bound.bind_eq ?_
    refine (takes_message _ _ _ h ?_ rest).bind_eq (takes_pure rfl)
    rw [List.length_append]
    omega
  | enum h =>
    refine takes_peek_kind.bind ?_
    intro t ht
    rw [ht, nextKind_append (by simp [nextKind_enum h]), nextKind_enum h]
    exact (takes_enumeration h).bind_eq (takes_pure rfl)
  | service h =>
    refine takes_peek_kind.bind ?_
    intro t ht
    rw [ht, nextKind_append (by simp [nextKind_service h]), nextKind_service h]
    exact (takes_service h).bind_eq (takes_pure rfl)
  | extend h =>
    refine takes_peek_kind.bind ?_
    intro t ht
    rw [ht, nextKind_append (by simp [starts_extend h]), starts_extend h]
    exact (takes_extendBlock h).bind_eq (takes_pure rfl)
  | semicolon =>
    refine takes_peek_kind.bind ?_
    intro t ht
    rw [ht]
    exact takes_advance.bind fun _ _ => takes_pure rfl

theorem takes_file {f : File} (h : f.Written us) : Takes file us [] (· = f) := by
  obtain ⟨parts, hparts, rfl⟩ := h
  refine takes_each_atEnd (F := fun _ => True) hparts
    (fun before => before.foldl FilePart.addTo .empty) ?_ trivial ?_
  · intro part u hu
    exact ⟨trivial, (starts_filePart hu).ne.2⟩
  · intro before part after _ u vs hu _
    rw [List.foldl_append]
    exact takes_filePart hu _

end IdlBridge.Proto.Parser

namespace IdlBridge.Proto

open Idl

/-- The tokens of a spelling read as the file. -/
theorem File.ofTokens?_of_written {f : File} {us : List Atom} (h : f.Written us)
    {ts : List Token} {eof : Token} (hts : List.Forall₂ Token.Is ts us) (heof : eof.Is .eof) :
    File.ofTokens? (ts ++ [eof]) = .ok f :=
  Idl.Parser.parse_of_takes (Parser.takes_file h) hts heof

/-- The grammar is accepted, and only what is meant to be skipped is skipped.  A spellable file has
    a spelling, and whichever of its spellings comes without comments, wherever its tokens stand,
    reads as the file. -/
theorem accepts_file {f : File} (h : f.Spellable) :
    (∃ us, f.Written us) ∧ ∀ us, f.Written us → ∀ (ts : List Token) (eof : Token),
      List.Forall₂ Token.Is ts us → eof.Is .eof → File.ofTokens? (ts ++ [eof]) = .ok f := by
  constructor
  · exact h.exists_written
  · intro us hus ts eof hts heof
    exact File.ofTokens?_of_written hus hts heof

/-! ## A file

    Skipped statements stand at every depth, in front of the declarations that they must not
    swallow; a group of alternatives has something skipped between its fields.
-/

/-- A constant with aggregates, lists, texts, numbers and truth values in it. -/
def infoValue : Value :=
  .map [(.text "title", .text "Books and more"), (.text "tags", .list [.text "a", .int 2]),
    (.text "public", .bool true)]

def infoOption : Setting := ⟨"api.info", infoValue⟩

def pagesField : Field := ⟨"Page", "pages", 1, true, none, none, [], []⟩

def paperField : Field := ⟨"string", "paper", 4, false, none, some "kind", [], []⟩

def screenField : Field :=
  ⟨"int32", "screen", 5, false, none, some "kind", [⟨"deprecated", .bool true⟩], []⟩

def indexField : Field := ⟨"Page", "index", 6, false, some "string", none, [], []⟩

def pageMessage : Message := ⟨"Page", [], [], [], [], []⟩

def bookMessage : Message :=
  ⟨"Book", [pagesField, paperField, screenField, indexField], [pageMessage], [], [infoOption], []⟩

def sizeEnum : Enum := ⟨"Size", [⟨"SMALL", 0, []⟩, ⟨"LARGE", 2, []⟩], [], []⟩

def putRpc : Rpc := ⟨"Put", "Book", "Size", true, false, [⟨"idempotent", .text "yes"⟩], []⟩

def bookstore : File :=
  { syntaxName := "proto3"
    package := "books.v1"
    imports := ["base.proto"]
    options := []
    messages := [bookMessage]
    enums := [sizeEnum]
    services := [⟨"Shelf", [putRpc], [], []⟩] }

def infoAtoms : List Atom :=
  [.mark .leftParen, .word ".api", .mark .rightParen, .word ".info", .mark .equals,
    .mark .leftBrace, .word "title", .mark .colon, .string "Books", .string " and more",
      .mark .semicolon,
    .word "tags", .mark .leftBracket, .word "a", .number "0x2", .mark .comma, .mark .rightBracket,
    .word "public", .mark .colon, .word "true", .mark .comma, .mark .rightBrace]

def groupAtoms : List Atom :=
  [.mark .semicolon,
    .word "string", .word "paper", .mark .equals, .number "4", .mark .semicolon,
    .keyword .extensions, .number "100", .mark .semicolon,
    .word "int32", .word "screen", .mark .equals, .number "5", .mark .leftBracket,
      .word "deprecated", .mark .equals, .word "true", .mark .rightBracket, .mark .semicolon]

def bookAtoms : List Atom :=
  ([.keyword .reserved, .number "2", .mark .comma, .number "3", .mark .semicolon,
    .keyword .repeated, .word "Page", .word "pages", .mark .equals, .number "1", .mark .semicolon,
    .keyword .message, .word "Page", .mark .leftBrace, .mark .semicolon, .mark .rightBrace,
    .keyword .option] : List Atom) ++ (infoAtoms ++ ([.mark .semicolon,
    .keyword .oneof, .word "kind", .mark .leftBrace] : List Atom) ++ (groupAtoms ++
    ([.mark .rightBrace,
    .keyword .extend, .word "Other", .mark .leftBrace, .mark .leftBrace, .word "a",
      .mark .rightBrace, .word "b", .mark .rightBrace,
    .keyword .map, .mark .leftAngle, .word "string", .mark .comma, .word "Page", .mark .rightAngle,
      .word "index", .mark .equals, .number "6", .mark .semicolon] : List Atom)))

def shelfAtoms : List Atom :=
  [.keyword .service, .word "Shelf", .mark .leftBrace, .mark .semicolon,
    .keyword .rpc, .word "Put", .mark .leftParen, .keyword .stream, .word "Book", .mark .rightParen,
      .keyword .returns, .mark .leftParen, .word "Size", .mark .rightParen,
      .mark .leftBrace, .keyword .option, .word "idempotent", .mark .equals, .word "yes",
        .mark .semicolon, .mark .semicolon, .mark .rightBrace,
    .mark .rightBrace]

def sizeAtoms : List Atom :=
  [.keyword .enum, .word "Size", .mark .leftBrace,
    .word "SMALL", .mark .equals, .number "0", .mark .semicolon,
    .keyword .reserved, .number "1", .mark .semicolon,
    .word "LARGE", .mark .equals, .number "0b10", .mark .semicolon, .mark .semicolon,
    .mark .rightBrace]

/-- The atoms of `bookstore` in one of its spellings. -/
def bookstoreAtoms : List Atom :=
  .mark .semicolon :: (shelfAtoms ++
    ([.keyword .extend, .word "Book", .mark .leftBrace, .mark .leftBrace, .mark .rightBrace,
      .mark .rightBrace] : List Atom) ++ sizeAtoms ++
    (.keyword .message :: .word "Book" :: .mark .leftBrace ::
      (bookAtoms ++ [.mark .rightBrace]) : List Atom) ++
    ([.keyword .importWord, .word "public", .string "base.proto", .mark .semicolon,
      .keyword .package, .word "books.v1", .mark .semicolon] : List Atom))

theorem spellable_bookstore : bookstore.Spellable where
  options := by
    intro s hs
    cases hs
  enums := by
    have hsmall : EnumValue.Spellable ⟨"SMALL", 0, []⟩ := ⟨by decide, by simp⟩
    have hlarge : EnumValue.Spellable ⟨"LARGE", 2, []⟩ := ⟨by decide, by simp⟩
    have hsize : sizeEnum.Spellable :=
      ⟨List.forall_mem_cons.2 ⟨hsmall, List.forall_mem_singleton.2 hlarge⟩, by simp [sizeEnum], rfl⟩
    exact List.forall_mem_singleton.2 hsize
  messages := by
    have htags : Spellable (.list [.text "a", .int 2]) :=
      .list (List.forall_mem_cons.2 ⟨.text "a", List.forall_mem_singleton.2 (.int 2)⟩)
    have hinfo : infoOption.Spellable :=
      @Spellable.map
        [("title", .text "Books and more"), ("tags", .list [.text "a", .int 2]),
          ("public", .bool true)]
        (by decide) (by simpa using ⟨.text _, htags, .bool true⟩)
    have hpages : pagesField.Spellable :=
      ⟨fun _ => by decide, fun h => absurd rfl h, fun h => absurd rfl h, by simp [pagesField],
        rfl⟩
    have hpaper : paperField.Spellable :=
      ⟨fun _ => by decide, fun h => absurd rfl h, fun h => absurd rfl h, by simp [paperField],
        rfl⟩
    have hscreen : screenField.Spellable :=
      ⟨fun _ => by decide, fun h => absurd rfl h, fun h => absurd rfl h,
        List.forall_mem_singleton.2 (.bool true), rfl⟩
    have hindex : indexField.Spellable :=
      ⟨fun h => (by cases h), fun _ => rfl, fun _ => rfl, by simp [indexField], rfl⟩
    have hpage : pageMessage.Spellable :=
      .mk (by simp [pageMessage]) (by simp [pageMessage]) (by simp [pageMessage])
        (by simp [pageMessage]) rfl
    have hbook : bookMessage.Spellable :=
      .mk (by simpa [bookMessage] using ⟨hpages, hpaper, hscreen, hindex⟩)
        (List.forall_mem_singleton.2 hpage) (by simp [bookMessage])
        (List.forall_mem_singleton.2 hinfo) rfl
    exact List.forall_mem_singleton.2 hbook
  services := by
    have hput : putRpc.Spellable :=
      ⟨by decide, by decide, List.forall_mem_singleton.2 (.text "yes"), rfl⟩
    exact List.forall_mem_singleton.2 ⟨List.forall_mem_singleton.2 hput, by simp, rfl⟩

theorem stated_infoOption :
    infoOption.Stated (.keyword .option :: (infoAtoms ++ [.mark .semicolon])) := by
  have htags : ConstantWritten (.list [.text "a", .int 2]) _ :=
    @ConstantWritten.list
      [⟨.text "a", [.word "a"], false⟩, ⟨.int 2, [.number "0x2"], true⟩]
      (by simpa using ⟨.name (by decide) (by decide), .int (by decide)⟩)
      (by simp [ListItem.Apart])
  have hvalue : ConstantWritten infoValue _ :=
    @ConstantWritten.map
      [⟨"title", true, .text "Books and more", [.string "Books", .string " and more"],
          [.mark .semicolon]⟩,
        ⟨"tags", false, .list [.text "a", .int 2], _, []⟩,
        ⟨"public", true, .bool true, [.word "true"], [.mark .comma]⟩]
      (by simpa using ⟨@ConstantWritten.text ["Books", " and more"] (by simp), htags, .bool true⟩)
      (by simpa using ⟨.semicolon, .none, .comma⟩) (by decide)
  have hname : OptionName infoOption.name
      [.mark .leftParen, .word ".api", .mark .rightParen, .word ".info"] :=
    .part ".api" (by decide) (by decide)
  exact .mk (.mk hname hvalue)

theorem written_bookMessage : bookMessage.Written
    (.keyword .message :: .word "Book" :: .mark .leftBrace ::
      (bookAtoms ++ [.mark .rightBrace])) := by
  have hnumber : ∀ (name : Text) (number : Int) (t : Text), Numeral.intLiteral? t = some number →
      NumberedWritten name number [] [.word name, .mark .equals, .number t, .mark .semicolon] :=
    fun _ _ _ ht => .mk ht .none
  have hpages : pagesField.Written none _ :=
    .plain rfl rfl rfl .repeated (by decide) (hnumber "pages" 1 "1" (by decide))
  have hpaper : paperField.Written (some "kind") _ :=
    .plain rfl rfl rfl .none (by decide) (hnumber "paper" 4 "4" (by decide))
  have hdeprecated : Setting.Written ⟨"deprecated", .bool true⟩ _ :=
    .mk (.plain "deprecated") (.bool true)
  have hscreen : screenField.Written (some "kind") _ :=
    .plain rfl rfl rfl .none (by decide)
      (@NumberedWritten.mk "screen" 5 _ "5" _ (by decide) (.bracketed (.one hdeprecated)))
  have hindex : indexField.Written none _ :=
    .map rfl rfl rfl rfl rfl (hnumber "index" 6 "6" (by decide))
  have hextensions : SkippedStatement .extensions _ :=
    @SkippedStatement.mk .extensions [.number "100"] (by simp [Without])
  have hgroup : Each (GroupPart.Written "kind") _ _ :=
    .cons (.skipped .semicolon) (.cons (.field rfl hpaper)
      (.cons (.skipped (.extensions hextensions)) (.cons (.field rfl hscreen) .nil)))
  have hpage : pageMessage.Written _ := .mk (.cons (.skipped .semicolon) .nil)
  have hreserved : SkippedStatement .reserved _ :=
    @SkippedStatement.mk .reserved [.number "2", .mark .comma, .number "3"] (by simp [Without])
  have hother : ExtendBlock _ :=
    @ExtendBlock.mk [.word "Other"] [.mark .leftBrace, .word "a", .mark .rightBrace, .word "b"]
      (by simp [Without]; decide)
      (.block (.cons (by decide) (by decide) (by decide) .nil)
        (.cons (by decide) (by decide) (by decide) .nil))
  have hbook : Each (MessagePart.Written Message.Written) _ _ :=
    .cons (.skipped (.reserved hreserved)) (.cons (.field hpages) (.cons (.message hpage)
      (.cons (.option stated_infoOption) (.cons (.group hgroup)
        (.cons (.skipped (.extend hother)) (.cons (.field hindex) .nil))))))
  exact .mk hbook

theorem written_bookstore : bookstore.Written bookstoreAtoms := by
  have hidempotent : Setting.Stated ⟨"idempotent", .text "yes"⟩ _ :=
    .mk (.mk (.plain "idempotent") (.name (by decide) (by decide)))
  have hput : putRpc.Written _ :=
    .mk (.mk (by decide)) (.mk (by decide))
      (.block (.cons (.option hidempotent) (.cons .semicolon .nil))) rfl
  have hshelf : Service.Written ⟨"Shelf", [putRpc], [], []⟩ _ :=
    .mk (.cons .semicolon (.cons (.rpc hput) .nil))
  have hextend : ExtendBlock _ :=
    @ExtendBlock.mk [.word "Book"] [.mark .leftBrace, .mark .rightBrace]
      (by simp [Without]; decide) (.block .nil .nil)
  have hsmall : EnumPart.Written (.value ⟨"SMALL", 0, []⟩) _ :=
    .value (by decide) (@NumberedWritten.mk _ _ _ "0" _ (by decide) .none)
  have hlarge : EnumPart.Written (.value ⟨"LARGE", 2, []⟩) _ :=
    .value (by decide) (@NumberedWritten.mk _ _ _ "0b10" _ (by decide) .none)
  have hreserved : SkippedStatement .reserved _ :=
    @SkippedStatement.mk .reserved [.number "1"] (by simp [Without])
  have hsize : sizeEnum.Written _ :=
    .mk (.cons hsmall (.cons (.reserved hreserved) (.cons hlarge (.cons .semicolon .nil))))
  have hall : Each FilePart.Written _ _ :=
    .cons .semicolon (.cons (.service hshelf) (.cons (.extend hextend) (.cons (.enum hsize)
      (.cons (.message written_bookMessage) (.cons (.importFile "base.proto" .isPublic)
        (.cons (.package "books.v1") .nil))))))
  exact ⟨_, hall, rfl⟩

theorem accepts_bookstore : bookstore.Spellable ∧ bookstore.Written bookstoreAtoms ∧
    File.ofTokens? (bookstoreAtoms.map Atom.token ++ [Atom.token .eof]) = .ok bookstore := by
  refine ⟨spellable_bookstore, written_bookstore, ?_⟩
  exact (accepts_file spellable_bookstore).2 bookstoreAtoms written_bookstore _ _
    (Atom.forall₂_token bookstoreAtoms) ⟨rfl, rfl, rfl, rfl⟩

end IdlBridge.Proto
