import IdlBridge.Proofs.Draft.Regularity
import IdlBridge.Proofs.Draft.Spelling
import IdlBridge.Proofs.Proto.Canonical

/-! # Writing a draft and reading it

    Reading the text of a regular draft gives its source.  Both halves meet at the atoms of the
    source: the text lexes to them, and they read as the source.  At the end of a file the line
    feeds are taken away but for one, so a file is put together from texts that spell the same
    without them.
-/

namespace IdlBridge.Draft

open Idl Idl.Lexicon Proto

/-! ## Options of files -/

namespace Literal

theorem ofValue_items {xs : List Value} (h : ∀ x ∈ xs, ∃ l, ofValue x = .ok l ∧ l.toValue = x) :
    ∃ ls, ofValue.items xs = .ok ls ∧ ls.map toValue = xs := by
  induction xs with
  | nil => exact ⟨[], rfl, rfl⟩
  | cons x xs ih =>
    obtain ⟨l, hl, rfl⟩ := h x List.mem_cons_self
    obtain ⟨ls, hls, rfl⟩ := ih fun y hy => h y (List.mem_cons_of_mem _ hy)
    refine ⟨l :: ls, ?_, rfl⟩
    rw [ofValue.items, hl, hls]
    rfl

theorem ofValue_entries {es : Value.Entries} (hkeys : ∀ e ∈ es, e.1 = .text e.1.asText)
    (h : ∀ e ∈ es, ∃ l, ofValue e.2 = .ok l ∧ l.toValue = e.2) :
    ∃ ls, ofValue.entries es = .ok ls ∧ (ls.map fun e => (.text e.1, e.2.toValue)) = es := by
  induction es with
  | nil => exact ⟨[], rfl, rfl⟩
  | cons e es ih =>
    obtain ⟨k, v⟩ := e
    obtain ⟨l, hl, rfl⟩ := h (k, v) List.mem_cons_self
    obtain ⟨ls, hls, rfl⟩ := ih (fun e he => hkeys e (List.mem_cons_of_mem _ he))
      fun e he => h e (List.mem_cons_of_mem _ he)
    obtain ⟨t, rfl⟩ : ∃ t, k = .text t := ⟨_, hkeys (k, l.toValue) List.mem_cons_self⟩
    refine ⟨(t, l) :: ls, ?_, rfl⟩
    rw [ofValue.entries, hl, hls]
    rfl

/-- A constant has a literal, and the literal is the constant. -/
theorem ofValue_of_isConstant {allowed : Text → Prop} {v : Value} (h : v.IsConstant allowed) :
    ∃ l, ofValue v = .ok l ∧ l.toValue = v := by
  induction h with
  | bool b => exact ⟨.bool b, rfl, rfl⟩
  | @int i _ => exact ⟨.int i, rfl, rfl⟩
  | @text t _ => exact ⟨.text t, rfl, rfl⟩
  | @list xs _ ih =>
    obtain ⟨ls, hls, rfl⟩ := ofValue_items ih
    refine ⟨.list ls, ?_, toValue_list ls⟩
    rw [ofValue, hls]
    rfl
  | @map es hkeys hapart _ ih =>
    obtain ⟨ls, hls, rfl⟩ := ofValue_entries (fun e he => (hkeys e he).1) ih
    refine ⟨.map ls, ?_, toValue_map ls⟩
    rw [List.pairwise_map] at hapart
    have happend : Table.insertAll [] ls = ls := Table.insertAll_eq_append hapart
    rw [ofValue, hls]
    exact congrArg (fun t => Except.ok (Literal.map t)) happend

end Literal

/-- Constants have literals, one for each option. -/
theorem literals_of_isConstant {allowed : Text → Prop} {t : Table Value}
    (h : ∀ e ∈ t, e.2.IsConstant allowed) :
    ∃ ls, Printer.literals t = .ok ls ∧ (ls.map fun e => (e.1, e.2.toValue)) = t := by
  induction t with
  | nil => exact ⟨[], rfl, rfl⟩
  | cons e t ih =>
    obtain ⟨name, v⟩ := e
    obtain ⟨l, hl, rfl⟩ := Literal.ofValue_of_isConstant (h _ List.mem_cons_self)
    obtain ⟨ls, hls, rfl⟩ := ih fun e he => h e (List.mem_cons_of_mem _ he)
    refine ⟨(name, l) :: ls, ?_, rfl⟩
    rw [Printer.literals, hl, hls]
    rfl

/-! ## Paragraphs -/

theorem spellsTrimmed_paragraph {α : Type} {xs : List α} {text : α → Text}
    {atoms : α → List Proto.Atom} (h : ∀ x ∈ xs, lexicon.SpellsTrimmed (text x) (atoms x)) :
    lexicon.SpellsTrimmed (Printer.paragraph (xs.map text)) (xs.flatMap atoms) := by
  rw [Printer.paragraph]
  split
  · next hempty =>
    rw [List.isEmpty_iff, List.map_eq_nil_iff] at hempty
    subst hempty
    exact spellsTrimmed_nil
  · have hfeed : ∀ d ∈ ("\n" : Text), d = '\n' := by decide
    have := (spellsTrimmed_flatMap h).append (spellsTrimmed_feeds hfeed)
    rwa [List.append_nil, List.flatMap_def] at this

theorem spellsTrimmed_statement {s feeds : Text} {us : List Proto.Atom}
    (h : lexicon.Spells (s ++ ";") us) (hfeeds : ∀ d ∈ feeds, d = '\n') :
    lexicon.SpellsTrimmed (s ++ ";" ++ feeds) us :=
  h.trimmed (by decide) hfeeds

theorem spellsTrimmed_syntaxName :
    lexicon.SpellsTrimmed "syntax = \"proto3\";\n\n"
      [keywordAtom .syntaxWord, .mark .equals, .string "proto3", .mark .semicolon] := by
  have hquotes : Quotes "proto3" "proto3" := quotes_self (by decide)
  have hkeyword : lexicon.Spells "syntax = " _ :=
    spells_keyword .syntaxWord (show marks? " = " = some [.equals] from rfl) (by decide)
  have hend : lexicon.Spells ";" (markAtoms [.semicolon] : List Proto.Atom) := spells_marks rfl
  have hall := (hkeyword.append (spells_string hquotes)).append hend
  have hfeeds : ∀ d ∈ ("\n\n" : Text), d = '\n' := by decide
  exact spellsTrimmed_statement hall hfeeds

theorem spellsTrimmed_package {package : Text} (h : package = [] ∨ isWord package = true) :
    lexicon.SpellsTrimmed
      (if package = [] then ("" : Text) else "package " ++ package ++ ";\n\n")
      (Proto.File.packageAtoms package) := by
  rw [Proto.File.packageAtoms]
  split
  · exact spellsTrimmed_nil
  · next hne =>
    have hword := h.resolve_left hne
    have hkeyword : lexicon.Spells "package " _ :=
      spells_keyword .package (show marks? " " = some [] from rfl) (by decide)
    have hname := spells_word hword (show marks? ";" = some [.semicolon] from rfl) (by decide)
    have hall := hkeyword.append hname
    rw [← List.append_assoc] at hall
    have hfeeds : ∀ d ∈ ("\n\n" : Text), d = '\n' := by decide
    have := spellsTrimmed_statement hall hfeeds
    rw [List.append_assoc] at this
    exact this

theorem spellsTrimmed_import {p : Text} (h : ∀ c ∈ p, c ≠ '"' ∧ c ≠ '\\') :
    lexicon.SpellsTrimmed (("import \"" : Text) ++ p ++ ("\";\n" : Text))
      (Proto.File.importAtoms p) := by
  have hkeyword : lexicon.Spells "import " _ :=
    spells_keyword .importWord (show marks? " " = some [] from rfl) (by decide)
  have hend : lexicon.Spells ";" (markAtoms [.semicolon] : List Proto.Atom) := spells_marks rfl
  have hall := (hkeyword.append (spells_string (quotes_self h))).append hend
  have hfeeds : ∀ d ∈ ("\n" : Text), d = '\n' := by decide
  have htext : ("import \"" : Text) ++ p ++ ("\";\n" : Text) =
      ("import " : Text) ++ ("\"" ++ (p ++ "\"")) ++ ";" ++ "\n" := by
    simp only [List.append_assoc]
    rfl
  rw [htext]
  exact spellsTrimmed_statement hall hfeeds

theorem spellsTrimmed_fileSetting {e : Text × Literal} (hname : isWord e.1 = true)
    (hvalue : e.2.toValue.IsConstant IsPlainText) :
    ∃ t, ((e.2.toText? []).map fun t => ("option " : Text) ++ e.1 ++ (" = " : Text) ++ t ++
        (";\n" : Text)) = some t ∧
      lexicon.SpellsTrimmed t (Proto.Setting.statementAtoms false ⟨e.1, e.2.toValue.arranged⟩) := by
  obtain ⟨t, ht, hspells⟩ := Literal.prints hvalue rfl (show marks? [] = some [] from rfl)
  have hkeyword : lexicon.Spells "option " _ :=
    spells_keyword .option (show marks? " " = some [] from rfl) (by decide)
  have hequals := spells_word hname (show marks? " = " = some [.equals] from rfl) (by decide)
  have hend := hspells.marks (show marks? ";" = some [.semicolon] from rfl) (by decide)
  have hall := hkeyword.append (hequals.append hend)
  have hfeeds : ∀ d ∈ ("\n" : Text), d = '\n' := by decide
  refine ⟨_, by rw [ht]; rfl, ?_⟩
  simp only [← List.append_assoc] at hall
  have := spellsTrimmed_statement hall hfeeds
  simp only [List.append_assoc] at this ⊢
  exact this

theorem spellsTrimmed_fileSettings {ls : Table Literal}
    (h : ∀ e ∈ ls, isWord e.1 = true ∧ e.2.toValue.IsConstant IsPlainText) :
    ∃ ts, Printer.fileSettings? ls = some ts ∧ lexicon.SpellsTrimmed (Printer.paragraph ts)
      (ls.flatMap fun e => Proto.Setting.statementAtoms false ⟨e.1, e.2.toValue.arranged⟩) := by
  have hstatement : ∀ e ∈ ls, _ := fun e he => spellsTrimmed_fileSetting (h e he).1 (h e he).2
  choose! text htext hspells using hstatement
  exact ⟨ls.map text, all?_map htext, spellsTrimmed_paragraph hspells⟩

/-! ## Declarations of files -/

/-- Declarations with empty lines behind them, in the order of their names. -/
theorem spellsTrimmed_spaced {α : Type} {f : α → Option Text} {atoms : α → List Proto.Atom}
    {key : α → Name} {xs : List α} (hkey : ∀ x ∈ xs, key x = .text (key x).asText)
    (h : ∀ x ∈ xs, PrintsBlock (f x) (atoms x)) :
    ∃ ds, Printer.all? (xs.map fun x => (f x).map (Prod.mk (key x))) = some ds ∧
      ∃ t, Printer.sorted? (Printer.spaced ds) = some t ∧
        lexicon.SpellsTrimmed t ((byName (fun x => (key x).asText) xs).flatMap atoms) := by
  have hall : ∀ x ∈ xs, (f x).map (Prod.mk (key x)) = some (key x, (f x).getD []) := by
    intro x hx
    rw [(h x hx).prints.eq_getD.1]
    rfl
  have hspaced : Printer.spaced (xs.map fun x => (key x, (f x).getD [])) =
      xs.map fun x => (key x, (f x).getD [] ++ "\n") := by
    rw [Printer.spaced, List.map_map]
    rfl
  refine ⟨_, all?_map hall, _, by rw [hspaced]; exact sorted?_eq_flatMap hkey, ?_⟩
  exact spellsTrimmed_flatMap fun x hx => (h x (List.mem_mergeSort.1 hx)).trimmed

theorem File.atoms_source {f : File} {ls : Table Literal}
    (h : (ls.map fun e => (e.1, e.2.toValue)) = Table.sort f.settings) : f.source.atoms =
    [keywordAtom .syntaxWord, .mark .equals, .string "proto3", .mark .semicolon] ++
      (Proto.File.packageAtoms f.package ++ ((byName id f.imports).flatMap Proto.File.importAtoms ++
        ((ls.flatMap fun e => Proto.Setting.statementAtoms false ⟨e.1, e.2.toValue.arranged⟩) ++
          ((byName Enum.name f.enums).flatMap (fun e => e.source.atoms) ++
            ((byName (fun m => m.name.asText) f.messages).flatMap (fun m => m.source.atoms) ++
              (byName (fun s => s.name.asText) f.services).flatMap
                (fun s => s.source.atoms)))))) := by
  rw [Proto.File.atoms]
  simp only [source, ← h, List.map_map, List.flatMap_map]
  rfl

/-- There is a text of a regular draft, and it lexes to the atoms of the source. -/
theorem File.exists_toText (f : File) (h : f.Regular) :
    ∃ text, f.toText = .ok text ∧ lexicon.Lexes text f.source.atoms := by
  obtain ⟨ls, hls, hvalues⟩ := literals_of_isConstant fun e he =>
    (h.settings e (Table.mem_sort.1 he)).2
  have hregular : ∀ e ∈ ls, isWord e.1 = true ∧ e.2.toValue.IsConstant IsPlainText := by
    intro e he
    have hmem : (e.1, e.2.toValue) ∈ Table.sort f.settings := hvalues ▸ List.mem_map_of_mem he
    exact h.settings _ (Table.mem_sort.1 hmem)
  obtain ⟨settings, hsettings, spells_settings⟩ := spellsTrimmed_fileSettings hregular
  have hindent : marks? [] = some [] := rfl
  obtain ⟨enums, henums, sortedEnums, hsortedEnums, spells_enums⟩ :=
    spellsTrimmed_spaced (show ∀ e ∈ f.enums, e.key = .text e.key.asText from fun _ _ => rfl)
      fun e he => prints_enum hindent (h.enums e he)
  have hnames : ∀ m ∈ f.messages, m.name = .text m.name.asText := fun m hm => by
    cases h.messages m hm with
    | mk name => exact name.1
  obtain ⟨messages, hmessages, sortedMessages, hsortedMessages, spells_messages⟩ :=
    spellsTrimmed_spaced hnames fun m hm => prints_message (h.messages m hm) hindent
  rw [← messages?_eq] at hmessages
  obtain ⟨services, hservices, sortedServices, hsortedServices, spells_services⟩ :=
    spellsTrimmed_spaced (fun s hs => (h.services s hs).name.1) fun s hs =>
      prints_service (h.services s hs)
  have spells_imports : lexicon.SpellsTrimmed (Printer.paragraph (Printer.imports f.imports)) _ :=
    spellsTrimmed_paragraph fun p hp =>
      spellsTrimmed_import (h.imports p (List.mem_mergeSort.1 hp))
  -- All the parts, each as a paragraph; the line feeds at the end are taken off below.
  let whole : Text := "syntax = \"proto3\";\n\n" ++
    ((if f.package = [] then ("" : Text) else "package " ++ f.package ++ ";\n\n") ++
      (Printer.paragraph (Printer.imports f.imports) ++ (Printer.paragraph settings ++
        (sortedEnums ++ (sortedMessages ++ sortedServices)))))
  have hwhole : lexicon.SpellsTrimmed whole f.source.atoms := by
    rw [File.atoms_source hvalues]
    exact spellsTrimmed_syntaxName.append ((spellsTrimmed_package h.package).append
      (spells_imports.append (spells_settings.append (spells_enums.append
        (spells_messages.append spells_services)))))
  have htext : Printer.file? f ls =
      some (Text.dropEndWhile (· == ('\n' : CodePoint)) whole ++ "\n") := by
    have henums : Printer.enums? [] f.enums = some enums := henums
    have hservices : Printer.services? f.services = some services := hservices
    simp only [Printer.file?, hsettings, henums, hsortedEnums, hmessages, hsortedMessages,
      hservices, hsortedServices, Option.bind_eq_bind, Option.bind_some, List.append_assoc]
    rfl
  -- Trimming takes only line feeds away, and one is put back.
  have hfeed : lexicon.Spells "\n" (markAtoms [] : List Proto.Atom) := spells_marks rfl
  have hlexes := (hwhole.trimmed.append hfeed).lexes
  rw [markAtoms, List.map_nil, List.append_nil] at hlexes
  refine ⟨_, ?_, hlexes⟩
  unfold File.toText
  simp only [hls, htext, bind, Except.bind, pure, Except.pure]

/-- Reading the text of a regular draft gives its source. -/
theorem ofText?_toText (f : File) (h : f.Regular) :
    ∃ text, f.toText = .ok text ∧ Proto.File.ofText? text = .ok f.source := by
  obtain ⟨text, htext, hlexes⟩ := f.exists_toText h
  exact ⟨text, htext, Proto.File.ofText?_of_lexes h.source hlexes⟩

/-- A draft with something of everything. -/
def shop : File where
  package := "shop.items"
  imports := ["google/api/annotations.proto"]
  settings := [("go_package", .text "shop/items")]
  messages := [{ name := .text "Item"
                 fields := [{ name := .text "tags", type := mapType "string" "Tag" },
                   { name := .text "id", type := "string", repeated := true
                     settings := [⟨"openapi.schema", .map [("minLength", .int 1)]⟩] }]
                 messages := [{ name := .text "Tag" }] }]
  enums := [{ name := "Color", values := [⟨"COLOR_RED", 1⟩, ⟨"COLOR_UNSPECIFIED", 0⟩] }]
  services := [{ name := .text "Items"
                 methods := [{ name := .text "Get", input := "Item", output := .text "Item" }] }]

theorem shop_regular : shop.Regular := by
  have hpow : ∀ k ≠ 0, 10 ≤ Nat.pow 10 k := fun k hk => Nat.le_self_pow hk 10
  have hlimit : ∀ n < 10, n < Nat.pow 10 Numeral.maxDecimalDigits := fun n hn =>
    Nat.lt_of_lt_of_le hn (hpow _ (by decide))
  have hsetting : (Setting.mk "openapi.schema" (.map [("minLength", .int 1)])).Regular :=
    ⟨rfl, .map (List.forall_mem_cons.2 ⟨⟨rfl, rfl⟩, nofun⟩) (List.pairwise_singleton _ _)
      (List.forall_mem_cons.2 ⟨.int (hlimit 1 (by decide)), nofun⟩)⟩
  have hfields : ∀ f ∈ (shop.messages.flatMap Message.fields), f.Regular :=
    List.forall_mem_cons.2 ⟨⟨⟨rfl, rfl⟩, .inr ⟨rfl, _, _, rfl, by decide, by decide⟩, nofun⟩,
      List.forall_mem_cons.2 ⟨⟨⟨rfl, rfl⟩, .inl (by decide),
        List.forall_mem_cons.2 ⟨hsetting, nofun⟩⟩, nofun⟩⟩
  have hitem : ∀ m ∈ shop.messages, m.Regular := by
    have htag : (Message.mk (.text "Tag") [] [] [] []).Regular :=
      .mk ⟨rfl, rfl⟩ nofun (hlimit 0 (by decide)) nofun nofun nofun
    exact List.forall_mem_cons.2 ⟨.mk ⟨rfl, rfl⟩ hfields (hlimit 2 (by decide))
      (List.forall_mem_cons.2 ⟨htag, nofun⟩) nofun nofun, nofun⟩
  refine ⟨.inr rfl, by decide, ?_, hitem, ?_, ?_⟩
  · exact List.forall_mem_cons.2 ⟨⟨rfl, .text (by decide)⟩, nofun⟩
  · refine List.forall_mem_cons.2 ⟨⟨rfl, ?_⟩, nofun⟩
    exact List.forall_mem_cons.2 ⟨⟨by decide, hlimit 1 (by decide)⟩,
      List.forall_mem_cons.2 ⟨⟨by decide, hlimit 0 (by decide)⟩, nofun⟩⟩
  · refine List.forall_mem_cons.2 ⟨⟨⟨rfl, rfl⟩, ?_⟩, nofun⟩
    exact List.forall_mem_cons.2
      ⟨⟨⟨rfl, rfl⟩, ⟨rfl, by decide⟩, ⟨⟨rfl, rfl⟩, by decide⟩, nofun⟩, nofun⟩

theorem shop_round_trip : shop.Regular ∧
    ∃ text, shop.toText = .ok text ∧ Proto.File.ofText? text = .ok shop.source :=
  ⟨shop_regular, ofText?_toText shop shop_regular⟩

/-- A draft whose only method has the given input. -/
def oneMethod (input : Text) : File where
  package := []
  services := [{ name := .text "S"
                 methods := [{ name := .text "M", input := input, output := .text "Out" }] }]

/-- A text is written for a method without an input, or with one named like the mark of a stream,
    and cannot be read. -/
theorem not_read_oneMethod :
    (∃ text, (oneMethod []).toText = .ok text ∧ (Proto.File.ofText? text).isOk = false) ∧
      ∃ text, (oneMethod "stream").toText = .ok text ∧ (Proto.File.ofText? text).isOk = false := by
  constructor
  · exact ⟨"syntax = \"proto3\";\n\nservice S \x7b\n  rpc M() returns (Out);\n\x7d\n",
      by decide +kernel, by decide +kernel⟩
  · exact ⟨"syntax = \"proto3\";\n\nservice S \x7b\n  rpc M(stream) returns (Out);\n\x7d\n",
      by decide +kernel, by decide +kernel⟩

end IdlBridge.Draft
