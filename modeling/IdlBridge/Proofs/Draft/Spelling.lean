import IdlBridge.Proofs.Collections
import IdlBridge.Proofs.Draft.Source
import IdlBridge.Proofs.Idl.Spelling

/-! # The atoms of written drafts

    Every printer gives a text, and the text spells the atoms of the source of what is printed.
    Literals come first: they may end with a word, so they spell their atoms in front of a break
    only, and everything else ends with a semicolon or a brace.
-/

namespace IdlBridge.Draft

open Idl Idl.Lexicon Proto

/-! ## Lists of texts -/

/-- There is a text, and it spells the atoms. -/
def Prints (o : Option Text) (us : List Proto.Atom) : Prop :=
  ∃ t, o = some t ∧ lexicon.Spells t us

theorem all?_map {α β : Type} {f : α → Option β} {g : α → β} {xs : List α}
    (h : ∀ x ∈ xs, f x = some (g x)) : Printer.all? (xs.map f) = some (xs.map g) := by
  induction xs with
  | nil => rfl
  | cons x xs ih =>
    have hx := h x List.mem_cons_self
    have hxs := ih fun y hy => h y (List.mem_cons_of_mem _ hy)
    simp only [List.map_cons, Printer.all?, hx, hxs]

theorem notAfter_text (s t : Text) : Value.notAfter (.text s) (.text t) = Text.le s t := by
  show decide (some (decide (t < s)) ≠ some true) = !decide (t < s)
  cases decide (t < s) <;> rfl

/-- Texts have an order. -/
theorem allOrdered_of_text {vs : List Value} (h : ∀ v ∈ vs, v = .text v.asText) :
    Value.allOrdered vs = true := by
  induction vs with
  | nil => rfl
  | cons v vs ih =>
    rw [Value.allOrdered, Bool.and_eq_true, List.all_eq_true]
    refine ⟨fun w hw => ?_, ih fun w hw => h w (List.mem_cons_of_mem _ hw)⟩
    rw [h v List.mem_cons_self, h w (List.mem_cons_of_mem _ hw)]
    rfl

theorem sortBy?_eq_byName {α : Type} {key : α → Name} {xs : List α}
    (h : ∀ x ∈ xs, key x = .text (key x).asText) :
    Value.sortBy? key xs = some (byName (fun x => (key x).asText) xs) := by
  have hordered : Value.allOrdered (xs.map key) = true := by
    refine allOrdered_of_text fun v hv => ?_
    obtain ⟨x, hx, rfl⟩ := List.mem_map.1 hv
    exact h x hx
  have hsort : (xs.mergeSort fun a b => Value.notAfter (key a) (key b)) =
      byName (fun x => (key x).asText) xs := by
    have := List.map_mergeSort (f := id) (l := xs) (r := fun a b => Value.notAfter (key a) (key b))
      (s := fun a b => Text.le (key a).asText (key b).asText) fun a ha b hb => by
        rw [h a ha, h b hb, notAfter_text]
        rfl
    rwa [List.map_id, List.map_id] at this
  rw [Value.sortBy?, if_pos hordered, hsort]

/-- There is a text, and it spells the atoms in front of a break. -/
def PrintsBroken (o : Option Text) (us : List Proto.Atom) : Prop :=
  ∃ t, o = some t ∧ lexicon.SpellsBroken t us

theorem Prints.eq_getD {o : Option Text} {us : List Proto.Atom} (h : Prints o us) :
    o = some (o.getD []) ∧ lexicon.Spells (o.getD []) us := by
  obtain ⟨t, rfl, ht⟩ := h
  exact ⟨rfl, ht⟩

theorem PrintsBroken.eq_getD {o : Option Text} {us : List Proto.Atom} (h : PrintsBroken o us) :
    o = some (o.getD []) ∧ lexicon.SpellsBroken (o.getD []) us := by
  obtain ⟨t, rfl, ht⟩ := h
  exact ⟨rfl, ht⟩

/-- Texts one after the other. -/
theorem prints_flatten {α : Type} {f : α → Option Text} {atoms : α → List Proto.Atom} {xs : List α}
    (h : ∀ x ∈ xs, Prints (f x) (atoms x)) :
    Prints ((Printer.all? (xs.map f)).map List.flatten) (xs.flatMap atoms) := by
  have hall := all?_map fun x hx => (h x hx).eq_getD.1
  refine ⟨xs.flatMap fun x => (f x).getD [], ?_, spells_flatMap fun x hx => (h x hx).eq_getD.2⟩
  rw [hall, Option.map_some, ← List.flatMap_def]

/-- The texts of named declarations in the order of the names. -/
theorem sorted?_eq_flatMap {α : Type} {text : α → Text} {key : α → Name} {xs : List α}
    (hkey : ∀ x ∈ xs, key x = .text (key x).asText) :
    Printer.sorted? (xs.map fun x => (key x, text x)) =
      some ((byName (fun x => (key x).asText) xs).flatMap text) := by
  have hsort : Value.sortBy? Prod.fst (xs.map fun x => (key x, text x)) = _ :=
    sortBy?_eq_byName fun d hd => by
      obtain ⟨x, hx, rfl⟩ := List.mem_map.1 hd
      exact hkey x hx
  rw [Printer.sorted?, hsort, Option.map_some, ← map_byName (fun x => (key x).asText)
    (fun d => d.1.asText) (fun x => (key x, text x)) fun _ _ => rfl, List.flatMap_map]

/-- Named declarations: all of them have texts, and in the order of their names these spell the
    atoms. -/
theorem prints_sorted {α : Type} {f : α → Option Text} {atoms : α → List Proto.Atom}
    {key : α → Name} {xs : List α} (hkey : ∀ x ∈ xs, key x = .text (key x).asText)
    (h : ∀ x ∈ xs, Prints (f x) (atoms x)) :
    ∃ ds, Printer.all? (xs.map fun x => (f x).map (Prod.mk (key x))) = some ds ∧
      Prints (Printer.sorted? ds) ((byName (fun x => (key x).asText) xs).flatMap atoms) := by
  have hall : ∀ x ∈ xs, (f x).map (Prod.mk (key x)) = some (key x, (f x).getD []) := by
    intro x hx
    rw [(h x hx).eq_getD.1]
    rfl
  refine ⟨_, all?_map hall, _, sorted?_eq_flatMap hkey, spells_flatMap fun x hx => ?_⟩
  exact (h x (List.mem_mergeSort.1 hx)).eq_getD.2

/-! ## Words in front of delimiters -/

theorem spells_word {w p : Text} {ds : List Delimiter} (h : isWord w = true)
    (hp : marks? p = some ds) (hne : p ≠ []) :
    lexicon.Spells (w ++ p) ([.word w] ++ markAtoms ds : List Proto.Atom) :=
  (spellsBroken_word h).marks hp hne

theorem spells_keyword (k : Word) {p : Text} {ds : List Delimiter} (hp : marks? p = some ds)
    (hne : p ≠ []) : lexicon.Spells (k.spelling ++ p) ([keywordAtom k] ++ markAtoms ds) :=
  spells_word (by cases k <;> rfl) hp hne

theorem spells_int (i : Int) {p : Text} {ds : List Delimiter} (hp : marks? p = some ds)
    (hne : p ≠ []) :
    lexicon.Spells (Text.ofInt i ++ p) ([.int i] ++ markAtoms ds : List Proto.Atom) :=
  (spellsBroken_int i).marks hp hne

/-! ## Literals -/

namespace Literal

/-- The line of an entry of a mapping. -/
def line (indent : Text) (e : Text × Literal) : Text :=
  indent ++ e.1 ++ ": " ++ (e.2.toText? indent).getD []

theorem items_eq_map {indent : Text} {xs : List Literal}
    (h : ∀ x ∈ xs, x.toText? indent = some ((x.toText? indent).getD [])) :
    toText?.items indent xs = some (xs.map fun x => (x.toText? indent).getD []) := by
  induction xs with
  | nil => rfl
  | cons x xs ih =>
    have hx := h x List.mem_cons_self
    have hxs := ih fun y hy => h y (List.mem_cons_of_mem _ hy)
    rw [toText?.items, hx, hxs]
    rfl

theorem entries_eq_map {indent : Text} {es : List (Text × Literal)}
    (h : ∀ e ∈ es, e.2.toText? indent = some ((e.2.toText? indent).getD [])) :
    toText?.entries indent es = some (es.map fun e => (e.1, line indent e)) := by
  induction es with
  | nil => rfl
  | cons e es ih =>
    obtain ⟨k, v⟩ := e
    have hv := h (k, v) List.mem_cons_self
    have hes := ih fun e he => h e (List.mem_cons_of_mem _ he)
    simp only at hv
    rw [toText?.entries, hes]
    simp only [line, List.map_cons]
    rw [hv]
    rfl

/-- There is a text of the literal, and it spells the data. -/
def Prints (indent : Text) (l : Literal) (v : Value) : Prop :=
  PrintsBroken (l.toText? indent) (constantAtoms v)

theorem prints_list {indent : Text} {data : Literal → Value} {xs : List Literal}
    (h : ∀ x ∈ xs, x.Prints indent (data x)) : (list xs).Prints indent (.list (xs.map data)) := by
  have hitems := items_eq_map fun x hx => (h x hx).eq_getD.1
  have hjoin : lexicon.SpellsBroken _ (listed _) := spellsBroken_join
    (show marks? ", " = some [.comma] from rfl) (by decide) fun x hx => (h x hx).eq_getD.2
  have hopen : lexicon.Spells "[" (markAtoms [.leftBracket] : List Proto.Atom) := spells_marks rfl
  have hclose := hjoin.marks (show marks? "]" = some [.rightBracket] from rfl) (by decide)
  have hall := hopen.append hclose
  have hatoms : constantAtoms (.list (xs.map data)) = markAtoms [.leftBracket] ++
      (listed (xs.map fun x => constantAtoms (data x)) ++ markAtoms [.rightBracket]) := by
    rw [constantAtoms_list, List.map_map]
    rfl
  refine ⟨_, by rw [toText?, hitems]; rfl, ?_⟩
  rw [hatoms]
  rw [← List.append_assoc] at hall
  exact hall.broken

/-- The entry as it is read, where `data` says how the literal in it is read. -/
def entry (data : Literal → Value) (e : Text × Literal) : Value × Value := (.text e.1, data e.2)

theorem sort_map_entry (data : Literal → Value) (es : List (Text × Literal)) :
    Value.Entries.sort (es.map (entry data)) = (byName Prod.fst es).map (entry data) :=
  (List.map_mergeSort fun a _ b _ => (notAfter_text a.1 b.1).symm).symm

theorem spells_line {indent : Text} (hindent : marks? indent = some []) {data : Literal → Value}
    {e : Text × Literal} (hkey : isWord e.1 = true) (he : e.2.Prints indent (data e.2)) :
    lexicon.SpellsBroken (line indent e) (entryAtoms (entry data e)) := by
  have hname := spells_word hkey (show marks? ": " = some [.colon] from rfl) (by decide)
  have hall := ((spells_marks hindent).append hname).append_broken he.eq_getD.2
  rw [← List.append_assoc] at hall
  exact hall

/-- A mapping with entries is written in the order of their keys. -/
theorem prints_map {indent : Text} {data : Literal → Value} {e : Text × Literal}
    {es : List (Text × Literal)} (hindent : marks? indent = some [])
    (hkeys : ∀ f ∈ e :: es, isWord f.1 = true)
    (h : ∀ f ∈ e :: es, f.2.Prints (indent ++ step) (data f.2)) :
    (map (e :: es)).Prints indent (.map ((byName Prod.fst (e :: es)).map (entry data))) := by
  have hdeeper : marks? (indent ++ step) = some [] := marks?_append hindent rfl
  have hclosing : marks? ("\n" ++ (indent ++ "\x7d")) = some [.rightBrace] :=
    marks?_append (show marks? "\n" = some [] from rfl) (marks?_append hindent rfl)
  -- The entries are sorted with their lines, which does not depend on the lines.
  have hlines : (Table.sort ((e :: es).map fun f => (f.1, line (indent ++ step) f))).values =
      (byName Prod.fst (e :: es)).map (line (indent ++ step)) := by
    show ((byName Prod.fst _).map Prod.snd) = _
    rw [← map_byName Prod.fst Prod.fst (fun f => (f.1, line (indent ++ step) f)) fun _ _ => rfl,
      List.map_map]
    rfl
  have htext : (map (e :: es)).toText? indent = some ("\x7b\n" ++
      (Text.join "\n" ((byName Prod.fst (e :: es)).map (line (indent ++ step))) ++
        ("\n" ++ (indent ++ "\x7d")))) := by
    rw [toText?, entries_eq_map fun f hf => (h f hf).eq_getD.1, Option.map_some, hlines]
    simp only [List.append_assoc]
  have hjoin : lexicon.SpellsBroken _ ((markAtoms []).intercalate _) := spellsBroken_join
    (show marks? "\n" = some [] from rfl) (by decide) fun f (hf : f ∈ byName Prod.fst (e :: es)) =>
      spells_line hdeeper (hkeys f (List.mem_mergeSort.1 hf)) (h f (List.mem_mergeSort.1 hf))
  have hopen : lexicon.Spells "\x7b\n" (markAtoms [.leftBrace] : List Proto.Atom) :=
    spells_marks rfl
  have hall := hopen.append (hjoin.marks hclosing (List.cons_ne_nil _ _))
  have hatoms : constantAtoms (.map ((byName Prod.fst (e :: es)).map (entry data))) =
      markAtoms [.leftBrace] ++ ((markAtoms []).intercalate
        ((byName Prod.fst (e :: es)).map fun f => entryAtoms (entry data f)) ++
          markAtoms [.rightBrace]) := by
    rw [constantAtoms_map, List.flatMap_map, List.flatMap_def]
    show _ = _ ++ (List.intercalate [] _ ++ _)
    rw [nil_intercalate]
    rfl
  refine ⟨_, htext, ?_⟩
  rw [hatoms]
  exact hall.broken

/-- The data that a literal is read back as. -/
def reread (l : Literal) : Value := (l.toValue.mapTexts rereadText).arranged

theorem reread_list (xs : List Literal) : (list xs).reread = .list (xs.map reread) := by
  rw [reread, toValue_list, Value.mapTexts_list, Value.arranged_list, List.map_map, List.map_map]
  rfl

theorem reread_map (es : List (Text × Literal)) :
    (map es).reread = .map ((byName Prod.fst es).map (entry reread)) := by
  rw [reread, toValue_map, Value.mapTexts_map, Value.arranged_map, List.map_map, List.map_map,
    ← sort_map_entry]
  rfl

theorem prints_reread {P : Text → Prop} {v : Value} (h : v.IsConstant P) :
    ∀ {l : Literal} {indent : Text}, l.toValue = v → marks? indent = some [] →
      l.Prints indent l.reread := by
  induction h with
  | bool b =>
    intro l indent hl _
    cases l <;> cases hl
    refine ⟨_, rfl, ?_⟩
    cases b with
    | true => exact spellsBroken_word rfl
    | false => exact spellsBroken_word rfl
  | @int i hi =>
    intro l indent hl _
    cases l <;> cases hl
    have htext : (int i).toText? indent = some (Text.ofInt i) := by
      rw [toText?, Value.intText?, if_pos hi]
    exact ⟨_, htext, spellsBroken_int i⟩
  | @text t _ =>
    intro l indent hl _
    cases l <;> cases hl
    refine ⟨_, rfl, ?_⟩
    have hstring := (spells_string (quotes_rereadText t)).broken
    rw [← List.append_assoc] at hstring
    exact hstring
  | @list xs _ ih =>
    intro l indent hl hindent
    cases l with
    | list ys =>
      rw [toValue_list] at hl
      cases hl
      rw [reread_list]
      exact prints_list fun y hy => ih _ (List.mem_map_of_mem hy) rfl hindent
    | _ => cases hl
  | @map es hkeys _ _ ih =>
    intro l indent hl hindent
    cases l with
    | map fs =>
      rw [toValue_map] at hl
      cases hl
      rw [reread_map]
      -- A mapping without entries is a pair of braces, with no line in between.
      cases fs with
      | nil =>
        refine ⟨_, rfl, ?_⟩
        rw [byName, List.mergeSort_nil]
        exact (spells_marks
          (show marks? "\x7b\x7d" = some [.leftBrace, .rightBrace] from rfl)).broken
      | cons f fs =>
        refine prints_map hindent (fun g hg => ?_) fun g hg => ?_
        · exact (hkeys _ (List.mem_map_of_mem hg)).2
        · exact ih _ (List.mem_map_of_mem hg) rfl (marks?_append hindent rfl)
    | _ => cases hl

/-- The text of a constant without control characters spells the constant. -/
theorem prints {v : Value} (h : v.IsConstant IsPlainText) {l : Literal} {indent : Text}
    (hl : l.toValue = v) (hindent : marks? indent = some []) : l.Prints indent v.arranged := by
  have hkept : v.IsConstant fun t => rereadText t = t :=
    h.mono fun t ht => rereadText_eq_self_iff.2 ht
  have hprints := prints_reread h hl hindent
  rwa [reread, hl, Value.mapTexts_eq_self hkept] at hprints

end Literal

/-! ## Options -/

theorem prints_setting {indent : Text} (hindent : marks? indent = some []) {s : Setting}
    (h : s.Regular) : Prints (Printer.setting? indent s) (s.source.statementAtoms true) := by
  obtain ⟨t, htext, hvalue⟩ := Literal.prints h.value rfl hindent
  have hkeyword : lexicon.Spells "option (" _ :=
    spells_keyword .option (show marks? " (" = some [.leftParen] from rfl) (by decide)
  have hname := spells_word h.name
    (show marks? ") = " = some [.rightParen, .equals] from rfl) (by decide)
  have hend := hvalue.marks (show marks? ";\n" = some [.semicolon] from rfl) (by decide)
  have hall := (spells_marks hindent).append (hkeyword.append (hname.append hend))
  refine ⟨_, by rw [Printer.setting?, htext]; rfl, ?_⟩
  simp only [List.append_assoc] at hall ⊢
  exact hall

theorem prints_settings {indent : Text} (hindent : marks? indent = some []) {ss : List Setting}
    (h : ∀ s ∈ ss, s.Regular) :
    Prints (Printer.settings? indent ss)
      ((ss.map Setting.source).flatMap (Proto.Setting.statementAtoms true)) := by
  rw [List.flatMap_map]
  exact prints_flatten fun s hs => prints_setting hindent (h s hs)

theorem prints_bracketed {s : Setting} (h : s.Regular) :
    PrintsBroken (Printer.bracketed? s) (s.source.atoms true) := by
  obtain ⟨t, htext, hvalue⟩ := Literal.prints h.value rfl
    (show marks? (Printer.step ++ Printer.step) = some [] from rfl)
  have hname := spells_word h.name
    (show marks? ") = " = some [.rightParen, .equals] from rfl) (by decide)
  have hopen : lexicon.Spells "(" (markAtoms [.leftParen] : List Proto.Atom) := spells_marks rfl
  have hall := (hopen.append hname).append_broken hvalue
  refine ⟨_, by rw [Printer.bracketed?, htext]; rfl, ?_⟩
  simp only [List.append_assoc] at hall ⊢
  exact hall

/-- The options of a field end what stands before them, and so does the semicolon if there are
    none. -/
theorem prints_fieldSettings {ss : List Setting} (h : ∀ s ∈ ss, s.Regular) :
    ∃ t, Printer.fieldSettings? ss = some t ∧ ∀ {s : Text} {us : List Proto.Atom},
      lexicon.SpellsBroken s us → lexicon.Spells (s ++ (t ++ ";\n"))
        (us ++ (bracketedAtoms (ss.map Setting.source) ++ markAtoms [.semicolon])) := by
  unfold Printer.fieldSettings?
  cases ss with
  | nil =>
    exact ⟨[], rfl, fun hs => hs.marks (show marks? ";\n" = some [.semicolon] from rfl) (by decide)⟩
  | cons s ss =>
    have hprints := fun s hs => (prints_bracketed (h s hs)).eq_getD
    have hall := all?_map fun s hs => (hprints s hs).1
    have hjoin : lexicon.SpellsBroken _ (listed _) := spellsBroken_join
      (show marks? ", " = some [.comma] from rfl) (by decide) fun s hs => (hprints s hs).2
    have hend := hjoin.marks
      (show marks? ("]" ++ ";\n") = some [.rightBracket, .semicolon] from rfl) (by decide)
    refine ⟨_, by rw [hall]; rfl, fun hs => ?_⟩
    have hopen := hs.marks (show marks? " [" = some [.leftBracket] from rfl) (by decide)
    have hfield := hopen.append hend
    have hatoms : bracketedAtoms ((s :: ss).map Setting.source) = .mark .leftBracket ::
        (listed ((s :: ss).map fun s => s.source.atoms true) ++ [.mark .rightBracket]) := by
      rw [bracketedAtoms, if_neg (by simp), List.map_map]
      rfl
    rw [hatoms]
    simp only [List.append_assoc, List.cons_append] at hfield ⊢
    exact hfield

/-! ## Blocks -/

/-- There is a text, it ends with a brace and a line feed, and it spells the atoms. -/
def PrintsBlock (o : Option Text) (us : List Proto.Atom) : Prop :=
  ∃ s : Text, o = some (s ++ ("\x7d" ++ "\n" : Text)) ∧ lexicon.Spells (s ++ "\x7d") us

theorem PrintsBlock.prints {o : Option Text} {us : List Proto.Atom} (h : PrintsBlock o us) :
    Prints o us := by
  obtain ⟨s, rfl, hs⟩ := h
  refine ⟨_, rfl, ?_⟩
  have := hs.append (spells_marks (show marks? "\n" = some [] from rfl))
  rwa [markAtoms, List.map_nil, List.append_nil, List.append_assoc] at this

/-- A block with an empty line behind it. -/
theorem PrintsBlock.trimmed {o : Option Text} {us : List Proto.Atom} (h : PrintsBlock o us) :
    lexicon.SpellsTrimmed (o.getD [] ++ "\n") us := by
  obtain ⟨s, rfl, hs⟩ := h
  have := hs.trimmed (by decide) (show ∀ d ∈ ("\n" ++ "\n" : Text), d = '\n' by decide)
  simp only [List.append_assoc, Option.getD_some] at this ⊢
  exact this

theorem printsBlock_block {indent body name : Text} {us : List Proto.Atom} (k : Word)
    (hindent : marks? indent = some []) (hname : isWord name = true)
    (hbody : lexicon.Spells body us) :
    PrintsBlock (some (Printer.block indent (k.spelling ++ " " ++ name) body))
      (blockAtoms k name us) := by
  have hkeyword := spells_keyword k (show marks? " " = some [] from rfl) (by decide)
  have hopen := spells_word hname (show marks? " \x7b\n" = some [.leftBrace] from rfl) (by decide)
  have hclose : lexicon.Spells (indent ++ "\x7d") (markAtoms [.rightBrace] : List Proto.Atom) :=
    spells_marks (marks?_append hindent rfl)
  have hall := (spells_marks hindent).append (hkeyword.append (hopen.append (hbody.append hclose)))
  refine ⟨indent ++ (k.spelling ++ " " ++ name) ++ (" \x7b\n" : Text) ++ body ++ indent, rfl, ?_⟩
  simp only [List.append_assoc] at hall ⊢
  exact hall

/-! ## Enumerations -/

theorem prints_enumValue {indent : Text} (hindent : marks? indent = some []) {v : EnumValue}
    (hname : IsTypeName v.name) (hnumber : v.number.natAbs < Nat.pow 10 Numeral.maxDecimalDigits) :
    Prints (Printer.enumValue? indent v) (Proto.EnumValue.atoms ⟨v.name, v.number, []⟩) := by
  have hequals := spells_word hname.1 (show marks? " = " = some [.equals] from rfl) (by decide)
  have hend := spells_int v.number (show marks? ";\n" = some [.semicolon] from rfl) (by decide)
  have hall := (spells_marks hindent).append (hequals.append hend)
  refine ⟨_, by rw [Printer.enumValue?, Value.intText?, if_pos hnumber]; rfl, ?_⟩
  simp only [List.append_assoc] at hall ⊢
  exact hall

theorem prints_enum {indent : Text} (hindent : marks? indent = some []) {e : Enum} (h : e.Regular) :
    PrintsBlock (Printer.enum? indent e) e.source.atoms := by
  obtain ⟨t, ht, hspells⟩ := prints_flatten
    fun v (hv : v ∈ e.values.mergeSort fun a b => a.number ≤ b.number) =>
      prints_enumValue (marks?_append hindent (show marks? Printer.step = some [] from rfl))
        (h.values v (List.mem_mergeSort.1 hv)).1 (h.values v (List.mem_mergeSort.1 hv)).2
  obtain ⟨lines, hlines, rfl⟩ := Option.map_eq_some_iff.1 ht
  have hblock := printsBlock_block .enum hindent h.name hspells
  rw [Printer.enum?, hlines]
  rw [← List.flatMap_map] at hblock
  exact hblock

/-! ## Messages -/

/-- The label and the type of a field. -/
theorem spells_type {f : Field} (h : f.Regular) (n : Nat) :
    lexicon.Spells ((if f.repeated then ("repeated " : Text) else "") ++ (f.type ++ " "))
      (f.source n).typeAtoms := by
  have hspace : marks? " " = some [] := rfl
  rcases h.type with hword | ⟨hrepeated, key, value, htype, hkey, hvalue⟩
  · have hname := spells_word hword.1 hspace (by decide)
    have hatoms : (f.source n).typeAtoms =
        (if f.repeated then [keywordAtom .repeated] else []) ++ [.word f.type] := by
      simp only [Proto.Field.typeAtoms, Field.source, mapTypes?_of_isWord hword.1, Option.map_none]
      rfl
    rw [hatoms]
    cases f.repeated with
    | true =>
      exact (spells_keyword .repeated hspace (by decide)).append hname
    | false => exact hname
  · -- The type of a map is the only one that is more than one word.
    have hopen : lexicon.Spells "map<" _ :=
      spells_keyword .map (show marks? "<" = some [.leftAngle] from rfl) (by decide)
    have hcomma := spells_word hkey.1 (show marks? ", " = some [.comma] from rfl) (by decide)
    have hclose := spells_word hvalue.1
      (show marks? (">" ++ " ") = some [.rightAngle] from rfl) (by decide)
    have hall := hopen.append (hcomma.append hclose)
    have hatoms : (f.source n).typeAtoms = [keywordAtom .map, .mark .leftAngle, .word key,
        .mark .comma, .word value, .mark .rightAngle] := by
      simp only [Proto.Field.typeAtoms, Field.source, htype, mapTypes?_mapType hkey.1,
        Option.map_some]
      rfl
    rw [hatoms, hrepeated, if_neg Bool.false_ne_true, htype, mapType]
    simp only [List.append_assoc] at hall ⊢
    exact hall

theorem prints_field {indent : Text} (hindent : marks? indent = some []) {f : Field} (h : f.Regular)
    (n : Nat) : Prints (Printer.field? indent f n) (f.source n).atoms := by
  obtain ⟨settings, hsettings, hend⟩ := prints_fieldSettings h.settings
  have hname := spells_word h.name.2 (show marks? " = " = some [.equals] from rfl) (by decide)
  have hnumber : lexicon.SpellsBroken (Text.ofNat n) ([.int n] : List Proto.Atom) :=
    spellsBroken_int n
  have hall := (spells_marks hindent).append
    ((spells_type h n).append (hname.append (hend hnumber)))
  have hdisplay : f.name.display? = some f.name.asText := by
    rw [h.name.1]
    rfl
  refine ⟨_, by rw [Printer.field?, hdisplay, hsettings], ?_⟩
  simp only [List.append_assoc] at hall ⊢
  exact hall

theorem prints_fields {indent : Text} (hindent : marks? indent = some []) {fs : List Field}
    (h : ∀ f ∈ fs, f.Regular) :
    Prints (Printer.fields? indent fs) ((numbered fs).flatMap Proto.Field.atoms) := by
  have hsort : Value.sortBy? Field.name fs = some (byName (fun f => f.name.asText) fs) :=
    sortBy?_eq_byName fun f hf => (h f hf).name.1
  rw [Printer.fields?, hsort, numbered, List.flatMap_map]
  refine prints_flatten fun e he => prints_field hindent (h e.1 ?_) e.2
  have := List.fst_mem_of_mem_zipIdx he
  exact List.mem_mergeSort.1 this

theorem messages?_eq {indent : Text} (ms : List Message) :
    Printer.message?.messages? indent ms =
      Printer.all? (ms.map fun m => (Printer.message? indent m).map (Prod.mk m.name)) := by
  induction ms with
  | nil => rfl
  | cons m ms ih =>
    rw [List.map_cons, Printer.message?.messages?, ih]
    generalize ms.map _ = ds
    cases Printer.message? indent m with
    | none => rfl
    | some t => cases hds : Printer.all? ds <;> simp [Printer.all?, hds]

theorem display?_of_isWordName {n : Name} (h : IsWordName n) : n.display? = some n.asText := by
  rw [h.1]
  rfl

theorem Message.atoms_source (m : Message) : m.source.atoms =
    blockAtoms .message m.name.asText
      ((m.settings.map Setting.source).flatMap (Proto.Setting.statementAtoms true) ++
        ((byName Enum.name m.enums).flatMap (fun e => e.source.atoms) ++
          ((numbered m.fields).flatMap Proto.Field.atoms ++
            (byName (fun n => n.name.asText) m.messages).flatMap fun n => n.source.atoms))) := by
  rw [Proto.Message.atoms_eq, messages_source, List.flatMap_map]
  cases m
  simp only [source, List.flatMap_map]

theorem prints_message {m : Message} (h : m.Regular) :
    ∀ {indent : Text}, marks? indent = some [] →
      PrintsBlock (Printer.message? indent m) m.source.atoms := by
  induction h with
  | @mk m hname hfields _ hmessages henums hsettings ih =>
    intro indent hindent
    have hdeeper : marks? (indent ++ Printer.step) = some [] := marks?_append hindent rfl
    obtain ⟨settings, hsettings, spells_settings⟩ := prints_settings hdeeper hsettings
    obtain ⟨enums, henums, sortedEnums, hsortedEnums, spells_enums⟩ :=
      prints_sorted (show ∀ e ∈ m.enums, e.key = .text e.key.asText from fun _ _ => rfl)
        fun e he => (prints_enum hdeeper (henums e he)).prints
    obtain ⟨fields, hfields, spells_fields⟩ := prints_fields hdeeper hfields
    have hnames : ∀ n ∈ m.messages, n.name = .text n.name.asText := fun n hn => by
      cases hmessages n hn with
      | mk name => exact name.1
    obtain ⟨messages, hmessages, sortedMessages, hsortedMessages, spells_messages⟩ :=
      prints_sorted hnames fun n hn => (ih n hn hdeeper).prints
    rw [← messages?_eq] at hmessages
    have hbody := spells_settings.append
      (spells_enums.append (spells_fields.append spells_messages))
    -- The order in the text is that of the source: enumerations come before fields.
    have hblock := printsBlock_block .message hindent hname.2 hbody
    have htext : Printer.message? indent m = some (Printer.block indent
        (Word.message.spelling ++ " " ++ m.name.asText)
        (settings ++ (sortedEnums ++ (fields ++ sortedMessages)))) := by
      obtain ⟨name, fs, nested, es, ss⟩ := m
      have henums : Printer.enums? (indent ++ Printer.step) es = some enums := henums
      have hdisplay := display?_of_isWordName hname
      simp only [Printer.message?, Option.bind_eq_bind, Option.pure_def]
      simp only [hsettings, henums, hsortedEnums, hfields, hmessages,
        hsortedMessages, hdisplay, Option.bind_some, List.append_assoc]
      rfl
    rw [htext, m.atoms_source]
    exact hblock

/-! ## Services -/

/-- What stands in front of the end of a method. -/
def methodHead (m : Method) : Text :=
  Printer.step ++ "rpc " ++ m.name.asText ++ "(" ++ m.input ++ ") returns (" ++
    m.output.asText ++ ")"

theorem spells_methodHead {m : Method} (h : m.Regular) {ending : Text} {us : List Proto.Atom}
    (hend : lexicon.Spells ending us) : lexicon.Spells (methodHead m ++ ending)
      (keywordAtom .rpc :: .word m.name.asText :: (Rpc.typeAtoms false m.input ++
        keywordAtom .returns :: (Rpc.typeAtoms false m.output.asText ++ us))) := by
  have hkeyword : lexicon.Spells "rpc " _ :=
    spells_keyword .rpc (show marks? " " = some [] from rfl) (by decide)
  have hname := spells_word h.name.2 (show marks? "(" = some [.leftParen] from rfl) (by decide)
  have hinput := spells_word h.input.1 (show marks? ") " = some [.rightParen] from rfl) (by decide)
  have hreturns : lexicon.Spells "returns (" _ :=
    spells_keyword .returns (show marks? " (" = some [.leftParen] from rfl) (by decide)
  have houtput := spells_word h.output.1.2
    (show marks? ")" = some [.rightParen] from rfl) (by decide)
  have hindent : lexicon.Spells Printer.step (markAtoms [] : List Proto.Atom) := spells_marks rfl
  have hall := hindent.append (hkeyword.append (hname.append (hinput.append
    (hreturns.append (houtput.append hend)))))
  have htext : methodHead m ++ ending = Printer.step ++ (("rpc " : Text) ++ (m.name.asText ++ "(" ++
      (m.input ++ ") " ++ (("returns (" : Text) ++ (m.output.asText ++ ")" ++ ending))))) := by
    simp only [methodHead, List.append_assoc]
    rfl
  rw [htext]
  exact hall

theorem prints_method {m : Method} (h : m.Regular) : Prints (Printer.method? m) m.source.atoms := by
  have hname := display?_of_isWordName h.name
  have houtput := display?_of_isWordName h.output.1
  obtain ⟨name, input, output, settings⟩ := m
  cases settings with
  | nil =>
    refine ⟨_, ?_, spells_methodHead h
      (spells_marks (show marks? ";\n" = some [.semicolon] from rfl))⟩
    simp only [Printer.method?, hname, houtput]
    rfl
  | cons s ss =>
    -- Options make the method a block, which ends without a semicolon.
    obtain ⟨body, hbody, hspells⟩ := prints_settings
      (show marks? (Printer.step ++ Printer.step) = some [] from rfl) h.settings
    have hopen : lexicon.Spells " \x7b\n" (markAtoms [.leftBrace] : List Proto.Atom) :=
      spells_marks rfl
    have hclose : lexicon.Spells (Printer.step ++ ("\x7d\n" : Text))
      (markAtoms [.rightBrace] : List Proto.Atom) := spells_marks rfl
    refine ⟨_, ?_, spells_methodHead h (hopen.append (hspells.append hclose))⟩
    simp only [Printer.method?, hname, houtput, hbody, methodHead, List.append_assoc]
    rfl

theorem prints_service {s : Service} (h : s.Regular) :
    PrintsBlock (Printer.service? s) s.source.atoms := by
  obtain ⟨methods, hmethods, sorted, hsorted, hspells⟩ :=
    prints_sorted (fun m hm => (h.methods m hm).name.1) fun m hm => prints_method (h.methods m hm)
  have hblock := printsBlock_block .service (show marks? [] = some [] from rfl) h.name.2 hspells
  have htext : Printer.service? s = some (Printer.block [] (Word.service.spelling ++ " " ++
      s.name.asText) sorted) := by
    have hmethods : Printer.methods? s.methods = some methods := hmethods
    simp only [Printer.service?, display?_of_isWordName h.name, hmethods, Option.bind_eq_bind,
      Option.bind_some, hsorted]
    rfl
  have hatoms : s.source.atoms = blockAtoms .service s.name.asText
      ((byName (fun m => m.name.asText) s.methods).flatMap fun m => m.source.atoms) := by
    rw [Proto.Service.atoms, Service.source, List.flatMap_map]
    rfl
  rw [htext, hatoms]
  exact hblock

end IdlBridge.Draft
