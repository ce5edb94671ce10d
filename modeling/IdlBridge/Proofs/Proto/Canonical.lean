import IdlBridge.Proofs.Proto.Reading
import IdlBridge.Proofs.Text

/-! # The atoms of a source are a spelling

    The atoms of a regular source are one of the spellings that the grammar allows, so they read
    as the source.
-/

namespace IdlBridge.Proto

open Idl

theorem keywordAtom_eq (k : Word) : keywordAtom k = .keyword k :=
  congrArg (fun kind => (⟨kind, k.spelling⟩ : Atom)) (kind_keyword k)

/-! ## Constants and options -/

theorem constantWritten_atoms {v : Value} (h : v.IsConstant fun _ => True) :
    ConstantWritten v (constantAtoms v) := by
  induction h with
  | bool b => exact .bool b
  | int hi => exact .int (Numeral.intLiteral?_ofInt hi)
  | @text t _ =>
    have htext : ConstantWritten (.text [t].flatten) ([t].map .string) := .text (by simp)
    rw [List.flatten_singleton] at htext
    exact htext
  | @list xs _ ih =>
    rw [constantAtoms_list]
    exact .listed ih
  | @map es hkeys hapart _ ih =>
    -- The keys are texts, so nothing is lost by reading them as such.
    have hentries : (es.map fun e => (e.1.asText, e.2)).map (fun e => (.text e.1, e.2)) = es := by
      rw [List.map_map]
      refine (List.map_congr_left fun e he => ?_).trans es.map_id
      show (Value.text e.1.asText, e.2) = e
      rw [← (hkeys e he).1]
    have hnodup : ((es.map fun e => (e.1.asText, e.2)).map Prod.fst).Nodup := by
      rw [List.map_map]
      exact List.pairwise_map.2 hapart
    have hvalues : ∀ e ∈ es.map fun e => (e.1.asText, e.2),
        ConstantWritten e.2 (constantAtoms e.2) := by
      intro entry hentry
      obtain ⟨e, he, rfl⟩ := List.mem_map.1 hentry
      exact ih e he
    have hmap := ConstantWritten.entries hnodup hvalues
    rw [hentries, List.flatMap_map] at hmap
    rw [constantAtoms_map]
    exact hmap

namespace Setting

variable {s : Setting}

theorem Regular.written (h : s.Regular) (custom : Bool) : s.Written (s.atoms custom) := by
  have hvalue := constantWritten_atoms h.value
  cases custom with
  | false => exact .mk (.plain s.name) hvalue
  | true =>
    have hname := OptionName.custom s.name
    rw [Text.dropLeading_eq_self h.name] at hname
    exact .mk hname hvalue

theorem Regular.stated (h : s.Regular) (custom : Bool) : s.Stated (s.statementAtoms custom) := by
  unfold statementAtoms
  rw [keywordAtom_eq]
  exact .mk (h.written custom)

end Setting

theorem settingsListed_atoms {s : Setting} {ss : List Setting} (h : ∀ o ∈ s :: ss, o.Regular) :
    SettingsListed (s :: ss) (listed ((s :: ss).map (Setting.atoms true))) := by
  induction ss generalizing s with
  | nil =>
    rw [List.map_singleton, listed_singleton]
    exact .one ((h s List.mem_cons_self).written true)
  | cons o ss ih =>
    obtain ⟨hs, hss⟩ := List.forall_mem_cons.1 h
    rw [List.map_cons, List.map_cons, listed_cons_cons]
    exact .cons (hs.written true) (ih hss)

theorem fieldOptions_atoms {ss : List Setting} (h : ∀ s ∈ ss, s.Regular) :
    FieldOptions ss (bracketedAtoms ss) := by
  cases ss with
  | nil => exact .none
  | cons s ss => exact .bracketed (settingsListed_atoms h)

theorem numberedWritten_atoms (name : Text) {number : Int} {options : List Setting}
    (hnumber : number.natAbs < Nat.pow 10 Numeral.maxDecimalDigits)
    (hoptions : ∀ s ∈ options, s.Regular) :
    NumberedWritten name number options (.word name :: .mark .equals :: .int number ::
      (bracketedAtoms options ++ [.mark .semicolon])) :=
  .mk (Numeral.intLiteral?_ofInt hnumber) (fieldOptions_atoms hoptions)

/-! ## Declarations -/

theorem Field.Regular.written {f : Field} (h : f.Regular) : f.Written none f.atoms := by
  have hend := numberedWritten_atoms f.name h.number h.options
  unfold Field.atoms Field.typeAtoms
  cases hmap : f.mapKey with
  | none =>
    have htype := h.type hmap
    have hlabel : Label f.repeated (if f.repeated then [keywordAtom .repeated] else []) := by
      rw [keywordAtom_eq]
      cases f.repeated with
      | false => exact .none
      | true => exact .repeated
    have hwritten := Field.Written.plain hmap h.oneof h.comment hlabel htype hend
    simpa using hwritten
  | some key =>
    have hrepeated := h.repeated (by simp [hmap])
    rw [keywordAtom_eq]
    exact .map hmap h.oneof rfl h.comment hrepeated hend

theorem Enum.Regular.written {e : Enum} (h : e.Regular) : e.Written e.atoms := by
  have hoptions : ∀ s ∈ e.options, EnumPart.Written (.option s) (s.statementAtoms true) :=
    fun s hs => .option ((h.options s hs).stated true)
  have hvalues : ∀ v ∈ e.values, EnumPart.Written (.value v) v.atoms := by
    intro v hv
    have hvalue := h.values v hv
    exact .value hvalue.name (numberedWritten_atoms v.name hvalue.number hvalue.options)
  unfold Enum.atoms blockAtoms
  rw [keywordAtom_eq]
  exact Enum.written_parts h.comment ((Each.of_map hoptions).append (Each.of_map hvalues))

theorem Message.Regular.written {m : Message} (h : m.Regular) : m.Written m.atoms := by
  induction h with
  | @mk m fields messages enums options comment ih =>
    have hoptions : ∀ s ∈ m.options,
        MessagePart.Written Message.Written (.option s) (s.statementAtoms true) :=
      fun s hs => .option ((options s hs).stated true)
    have henums : ∀ e ∈ m.enums, MessagePart.Written Message.Written (.enum e) e.atoms :=
      fun e he => .enum (enums e he).written
    have hfields : ∀ f ∈ m.fields, MessagePart.Written Message.Written (.ofField f) f.atoms := by
      intro f hf
      have hfield : MessagePart.ofField f = .field f := by
        unfold MessagePart.ofField
        rw [(fields f hf).oneof]
      rw [hfield]
      exact .field (fields f hf).written
    have hmessages : ∀ n ∈ m.messages, MessagePart.Written Message.Written (.message n) n.atoms :=
      fun n hn => .message (ih n hn)
    rw [Message.atoms_eq]
    unfold blockAtoms
    rw [keywordAtom_eq]
    exact Message.written_parts comment
      ((Each.of_map hoptions).append ((Each.of_map henums).append
        ((Each.of_map hfields).append (Each.of_map hmessages))))

theorem rpcType_atoms (streaming : Bool) {type : Text} (h : type ≠ Word.stream.spelling) :
    RpcType streaming type (Rpc.typeAtoms streaming type) := by
  unfold Rpc.typeAtoms
  rw [keywordAtom_eq]
  exact .mk h

theorem rpcEnd_atoms {options : List Setting} (h : ∀ s ∈ options, s.Regular) :
    RpcEnd options (Rpc.endAtoms options) := by
  unfold Rpc.endAtoms
  split
  · next hnil =>
    rw [hnil]
    exact .semicolon
  · have hoption : ∀ s ∈ options, OptionPart.Written (.option s) (s.statementAtoms true) :=
      fun s hs => .option ((h s hs).stated true)
    exact .of_options (Each.of_map hoption)

theorem Rpc.Regular.written {r : Rpc} (h : r.Regular) : r.Written r.atoms := by
  unfold Rpc.atoms
  rw [keywordAtom_eq, keywordAtom_eq]
  exact .mk (rpcType_atoms r.clientStreaming h.input) (rpcType_atoms r.serverStreaming h.output)
    (rpcEnd_atoms h.options) h.comment

theorem Service.Regular.written {s : Service} (h : s.Regular) : s.Written s.atoms := by
  have hoptions : ∀ o ∈ s.options, ServicePart.Written (.option o) (o.statementAtoms true) :=
    fun o ho => .option ((h.options o ho).stated true)
  have hrpcs : ∀ r ∈ s.rpcs, ServicePart.Written (.rpc r) r.atoms :=
    fun r hr => .rpc (h.rpcs r hr).written
  unfold Service.atoms blockAtoms
  rw [keywordAtom_eq]
  exact Service.written_parts h.comment ((Each.of_map hoptions).append (Each.of_map hrpcs))

namespace File

variable {f : File}

theorem each_packageParts (package : Text) :
    Each FilePart.Written (packageParts package) (packageAtoms package) := by
  unfold packageParts packageAtoms
  split
  · exact .nil
  · rw [keywordAtom_eq]
    have hpart : FilePart.Written (.package package)
        [.keyword .package, .word package, .mark .semicolon] := .package package
    exact .cons hpart .nil

theorem Regular.written (h : f.Regular) : f.Written f.atoms := by
  have hsyntax : FilePart.Written (.syntaxName f.syntaxName)
      [keywordAtom .syntaxWord, .mark .equals, .string f.syntaxName, .mark .semicolon] := by
    rw [keywordAtom_eq]
    exact .syntaxName f.syntaxName
  have himports : ∀ path ∈ f.imports, FilePart.Written (.importFile path) (importAtoms path) := by
    intro path _
    unfold importAtoms
    rw [keywordAtom_eq]
    exact .importFile path .none
  have hoptions : ∀ s ∈ f.options, FilePart.Written (.option s) (s.statementAtoms false) :=
    fun s hs => .option ((h.options s hs).stated false)
  have henums : ∀ e ∈ f.enums, FilePart.Written (.enum e) e.atoms :=
    fun e he => .enum (h.enums e he).written
  have hmessages : ∀ m ∈ f.messages, FilePart.Written (.message m) m.atoms :=
    fun m hm => .message (h.messages m hm).written
  have hservices : ∀ s ∈ f.services, FilePart.Written (.service s) s.atoms :=
    fun s hs => .service (h.services s hs).written
  have hparts : Each FilePart.Written f.parts f.atoms :=
    .cons hsyntax ((each_packageParts f.package).append ((Each.of_map himports).append
      ((Each.of_map hoptions).append ((Each.of_map henums).append
        ((Each.of_map hmessages).append (Each.of_map hservices))))))
  exact ⟨f.parts, hparts, f.foldl_parts⟩

/-- A text whose lexemes are the atoms of a regular source reads as the source. -/
theorem ofText?_of_lexes (h : f.Regular) {text : Text} (htext : lexicon.Lexes text f.atoms) :
    ofText? text = .ok f := by
  obtain ⟨ts, eof, htokens, heof, hts⟩ := Lexicon.tokens_of_lexes htext
  rw [ofText?, tokens, htokens]
  exact ofTokens?_of_written h.written hts heof

end File

end IdlBridge.Proto
