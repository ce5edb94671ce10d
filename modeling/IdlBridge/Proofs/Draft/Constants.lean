import IdlBridge.Proofs.Draft.RoundTrip

/-! # Constants between drafts and sources

    A constant is written as the value of an option and read back from there.  The printer and the
    lexer have their own tables of escapes, and the two disagree on control characters: the printer
    writes them as `\b`, `\f` or by their numbers, and the lexer drops the backslash.  What else a
    text holds is kept, and so is everything around it, up to the order of the entries of mappings.
-/

namespace IdlBridge.Draft

open Idl.Lexicon Proto

theorem marks?_spaces (n : Nat) : marks? (Text.spaces n) = some [] :=
  marks?_blanks fun _ hc => Or.inl (List.eq_of_mem_replicate hc)

/-- The source with one option, whose name is `x`. -/
def optionSource (value : Text) : Text := "option (x) = " ++ value ++ ";"

/-- The file with that option and nothing else. -/
def optionFile (w : Value) : Proto.File := { Proto.File.empty with options := [⟨"x", w⟩] }

theorem written_optionFile {w : Value} (h : w.IsConstant fun _ => True) :
    (optionFile w).Written (Proto.Setting.statementAtoms true ⟨"x", w⟩) := by
  have hpoint : ("x" : Text).head? ≠ some ('.' : CodePoint) := by decide
  have hregular : Proto.Setting.Regular ⟨"x", w⟩ := ⟨hpoint, h⟩
  have hpart : FilePart.Written (.option ⟨"x", w⟩) _ := .option (hregular.stated true)
  refine ⟨[.option ⟨"x", w⟩], ?_, rfl⟩
  rw [← List.append_nil (Proto.Setting.statementAtoms _ _)]
  exact .cons hpart .nil

theorem spells_optionSource {value : Text} {w : Value}
    (h : lexicon.SpellsBroken value (constantAtoms w)) :
    lexicon.Spells (optionSource value) (Proto.Setting.statementAtoms true ⟨"x", w⟩) := by
  have hkeyword : lexicon.Spells "option (" _ :=
    spells_keyword .option (show marks? " (" = some [.leftParen] from rfl) (by decide)
  have hname : lexicon.Spells "x) = " _ :=
    spells_word (show isWord "x" = true by decide)
      (show marks? ") = " = some [.rightParen, .equals] from rfl) (by decide)
  have hend := h.marks (show marks? ";" = some [.semicolon] from rfl) (by decide)
  have hall := hkeyword.append (hname.append hend)
  rw [optionSource, List.append_assoc]
  exact hall

/-- An option is read as what its value spells. -/
theorem ofText?_optionSource {value : Text} {w : Value} (hw : w.IsConstant fun _ => True)
    (h : lexicon.SpellsBroken value (constantAtoms w)) :
    Proto.File.ofText? (optionSource value) = .ok (optionFile w) := by
  obtain ⟨ts, eof, htokens, heof, hts⟩ := tokens_of_lexes (spells_optionSource h).lexes
  rw [Proto.File.ofText?, Proto.tokens, htokens]
  exact Proto.File.ofTokens?_of_written (written_optionFile hw) hts heof

theorem isNaN_of_isConstant {allowed : Text → Prop} {v : Value} (h : v.IsConstant allowed) :
    v.isNaN = false := by
  cases h <;> rfl

/-- Every constant can be written as the value of an option and read back from there, at every
    indentation.  What is read equals the constant exactly when no text in it has a control
    character other than tabs and line ends. -/
theorem reads_constant {v : Value} (h : v.IsConstant fun _ => True) (indent : Nat) :
    ∃ l t w, Literal.ofValue v = .ok l ∧ l.toText? (Text.spaces indent) = some t ∧
      Proto.File.ofText? (optionSource t) = .ok (optionFile w) ∧
      (w.equals v = true ↔ v.IsConstant IsPlainText) := by
  obtain ⟨l, hl, rfl⟩ := Literal.ofValue_of_isConstant h
  obtain ⟨t, ht, hspells⟩ := Literal.prints_reread h rfl (marks?_spaces indent)
  have hconstant : l.reread.IsConstant fun _ => True := h.mapTexts.arranged
  refine ⟨l, t, l.reread, hl, ht, ofText?_optionSource hconstant hspells, ?_⟩
  have hkept : (l.toValue.IsConstant fun t => rereadText t = t) ↔
      l.toValue.IsConstant IsPlainText :=
    ⟨.mono fun _ => rereadText_eq_self_iff.1, .mono fun _ => rereadText_eq_self_iff.2⟩
  rw [Value.equals, isNaN_of_isConstant h, Bool.not_false, Bool.and_true,
    Literal.reread, Value.same_arranged_mapTexts_iff h, hkept]

/-- A constant whose only control character stands in a list inside a mapping. -/
def bellValue : Value :=
  .map [(.text "signals", .list [.text "ring\x07", .text "tab\t"]), (.text "level", .int (-3)),
    (.text "enabled", .bool true)]

theorem isConstant_bellValue : bellValue.IsConstant fun _ => True := by
  have hlevel : (-3 : Int).natAbs < Nat.pow 10 Numeral.maxDecimalDigits := by decide +kernel
  have hsignals : Value.IsConstant (fun _ => True) (.list [.text "ring\x07", .text "tab\t"]) := by
    refine .list ?_
    simp only [List.forall_mem_cons]
    exact ⟨.text trivial, .text trivial, by simp⟩
  refine .map ?_ (by decide) ?_
  · simp only [List.forall_mem_cons]
    exact ⟨⟨rfl, by decide⟩, ⟨rfl, by decide⟩, ⟨rfl, by decide⟩, by simp⟩
  · simp only [List.forall_mem_cons]
    exact ⟨hsignals, .int hlevel, .bool true, by simp⟩

theorem reads_bellValue : bellValue.IsConstant (fun _ => True) ∧
    ∃ l t w, Literal.ofValue bellValue = .ok l ∧ l.toText? (Text.spaces 2) = some t ∧
      Proto.File.ofText? (optionSource t) = .ok (optionFile w) ∧
      (w.equals bellValue = true ↔ bellValue.IsConstant IsPlainText) :=
  ⟨isConstant_bellValue, reads_constant isConstant_bellValue 2⟩

end IdlBridge.Draft
