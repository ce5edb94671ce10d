import IdlBridge.Draft.FromDocument
import IdlBridge.Proofs.Computation
import IdlBridge.Proofs.Naming

/-! # Values of enumerations

    An enumeration has a value of its own besides those of the schema, and all of them are constants
    behind the name of the enumeration.  A constant only has the words of the text it is made of.
    So the names of the values are different exactly when no two texts have the same words, whatever
    stands between them and however they are capitalised, and none has the one word of the value
    that is added.
-/

namespace IdlBridge

namespace Spec.Schema

/-- The data is the schema of a text that has to be one of the given ones. -/
structure IsTextChoice (es : Value.Entries) (vs : List Text) : Prop where
  reference : (Draft.Conversion.part es "$ref").isTruthy = false
  type : soleType? (Draft.Conversion.part es "type") = some (.text "string")
  values : Draft.Conversion.part es "enum" = .list (vs.map .text)
  nonempty : vs ≠ []

theorem displayAll?_texts (ts : List Text) : displayAll? (ts.map .text) = some ts := by
  induction ts with
  | nil => rfl
  | cons t ts ih => rw [List.map_cons, displayAll?, ih]; rfl

theorem IsTextChoice.ofValue_eq {es : Value.Entries} {vs : List Text} (h : IsTextChoice es vs) :
    ofValue (.map es) = .enumeration vs := by
  have hreference := h.reference
  have htype := h.type
  have hvalues := h.values
  unfold Draft.Conversion.part at hreference htype hvalues
  have htruthy : (Value.list (vs.map .text)).isTruthy = true := by
    cases vs with
    | nil => exact absurd rfl h.nonempty
    | cons v vs => rfl
  have hchoice : ofEnum (.list (vs.map .text)) = .enumeration vs := by
    rw [ofEnum, enumValues?, displayAll?_texts]
  rw [ofValue, ofEntries]
  simp only [hreference, htype, hvalues, htruthy, Bool.false_eq_true, if_false]
  rw [if_neg (by decide), if_neg (by decide), if_pos ⟨by decide, trivial⟩, hchoice]

end Spec.Schema

namespace Draft.Piece

open Naming

/-- The name of the value that is added, as words. -/
def unspecifiedWords : List Text := ["UNSPECIFIED"]

/-- The names of the values: the enumeration's own name, and words behind it. -/
theorem names_enumeration (name : Text) (vs : List Text) :
    (enumeration name vs).values.map EnumValue.name =
      (unspecifiedWords :: vs.map constantWords).map fun ws =>
        upperSnake (camel name) ++ ("_" ++ Text.join "_" ws) := by
  have hown : ∀ i, (vs.zipIdx i).map (fun e => upperSnake (camel name) ++ "_" ++ upperSnake e.1) =
      vs.map fun v => upperSnake (camel name) ++ ("_" ++ Text.join "_" (constantWords v)) := by
    intro i
    induction vs generalizing i with
    | nil => rfl
    | cons v vs ih =>
      rw [List.zipIdx_cons, List.map_cons, List.map_cons, ih, upperSnake_eq_join v,
        List.append_assoc]
  rw [List.map_cons, List.map_map, enumeration, List.map_cons, List.map_map]
  exact congrArg (_ :: ·) (hown 1)

/-- The values have different names exactly when no two of them have the same words and none has the
    one word of the value that is added. -/
theorem nodup_names_enumeration (name : Text) (vs : List Text) :
    ((enumeration name vs).values.map EnumValue.name).Nodup ↔
      (vs.Pairwise fun v w => constantWords v ≠ constantWords w) ∧
        ∀ v ∈ vs, constantWords v ≠ unspecifiedWords := by
  have hwords : ∀ ws ∈ unspecifiedWords :: vs.map constantWords, ∀ w ∈ ws, IsWord w := by
    intro ws hws
    rcases List.mem_cons.1 hws with rfl | hws
    · rintro w hw
      rw [List.mem_singleton.1 hw]
      exact ⟨by decide, by decide⟩
    · obtain ⟨v, -, rfl⟩ := List.mem_map.1 hws
      exact isWord_of_mem_constantWords v
  -- A name can be cut into its words again, so different words make different names.
  have hname : ∀ ws ∈ unspecifiedWords :: vs.map constantWords,
      ∀ us ∈ unspecifiedWords :: vs.map constantWords,
        (upperSnake (camel name) ++ ("_" ++ Text.join "_" ws) ≠
          upperSnake (camel name) ++ ("_" ++ Text.join "_" us) ↔ ws ≠ us) := by
    intro ws hws us hus
    rw [not_iff_not, List.append_right_inj, List.append_right_inj]
    refine ⟨fun h => ?_, fun h => h ▸ rfl⟩
    rw [← words_join (hwords ws hws), h, words_join (hwords us hus)]
  rw [names_enumeration, List.Nodup, List.pairwise_map,
    List.Pairwise.iff_of_mem fun hws hus => hname _ hws _ hus, List.pairwise_cons,
    List.pairwise_map, List.forall_mem_map, and_comm]
  simp only [ne_comm]

end Draft.Piece

namespace Draft

open Naming

/-- A text schema with values becomes an enumeration, by itself or in the message of a property, and
    its values have different names exactly when no two texts have the same words and none has the
    one word of the value that is added. -/
theorem nodup_values_iff {es : Value.Entries} {vs : List Text}
    (h : Spec.Schema.IsTextChoice es vs) (name : Text) (p : Progress) :
    ∃ e, Ends (Piece.ofSchema (.ofValue (.map es)) (.text name) none) p (.enum e, none) p ∧
      (∀ m, Ends (Piece.ofSchema (.ofValue (.map es)) (.text name) (some m)) p
        (.field { name := .text name, type := e.name }, some (m.addEnum e)) p) ∧
      ((e.values.map EnumValue.name).Nodup ↔
        (vs.Pairwise fun v w => constantWords v ≠ constantWords w) ∧
          ∀ v ∈ vs, constantWords v ≠ Piece.unspecifiedWords) := by
  rw [h.ofValue_eq]
  refine ⟨Piece.enumeration name vs, ?_, fun m => ?_, Piece.nodup_names_enumeration name vs⟩
  · unfold Piece.ofSchema
    exact ends_bind.2 ⟨name, p, ends_pure.2 ⟨rfl, rfl⟩, ends_pure.2 ⟨rfl, rfl⟩⟩
  · unfold Piece.ofSchema
    exact ends_bind.2 ⟨name, p, ends_pure.2 ⟨rfl, rfl⟩, ends_pure.2 ⟨rfl, rfl⟩⟩

/-- The schema of a text with two values. -/
def choiceSchema (v w : Text) : Value.Entries :=
  [(.text "type", .text "string"), (.text "enum", .list [.text v, .text w])]

theorem isTextChoice_choiceSchema (v w : Text) :
    Spec.Schema.IsTextChoice (choiceSchema v w) [v, w] :=
  ⟨rfl, rfl, rfl, by simp⟩

/-- The states of a pet make different values. -/
theorem nodup_petStatus : Spec.Schema.IsTextChoice (choiceSchema "on hold" "soldOut")
    ["on hold", "soldOut"] ∧
    ∃ e, Ends (Piece.ofSchema (.ofValue (.map (choiceSchema "on hold" "soldOut")))
      (.text "petStatus") none) ⟨{ package := [] }, []⟩ (.enum e, none) ⟨{ package := [] }, []⟩ ∧
      (e.values.map EnumValue.name).Nodup := by
  have hchoice := isTextChoice_choiceSchema "on hold" "soldOut"
  obtain ⟨e, hends, -, hnodup⟩ := nodup_values_iff hchoice "petStatus" ⟨{ package := [] }, []⟩
  exact ⟨hchoice, e, hends, hnodup.2 ⟨by decide +kernel, by decide +kernel⟩⟩

/-- Two different texts that have the same words make one value twice. -/
theorem clashing_stockValues :
    ([("in-stock" : Text), "in_stock"].Nodup ∧ ∀ v ∈ [("in-stock" : Text), "in_stock"], v ≠ []) ∧
      Spec.Schema.IsTextChoice (choiceSchema "in-stock" "in_stock") ["in-stock", "in_stock"] ∧
      ∃ e, Ends (Piece.ofSchema (.ofValue (.map (choiceSchema "in-stock" "in_stock")))
        (.text "Stock") none) ⟨{ package := [] }, []⟩ (.enum e, none) ⟨{ package := [] }, []⟩ ∧
        e.values = [⟨"STOCK_UNSPECIFIED", 0⟩, ⟨"STOCK_IN_STOCK", 1⟩, ⟨"STOCK_IN_STOCK", 2⟩] ∧
        ¬ (e.values.map EnumValue.name).Nodup := by
  have hchoice := isTextChoice_choiceSchema "in-stock" "in_stock"
  refine ⟨by decide, hchoice, Piece.enumeration "Stock" ["in-stock", "in_stock"], ?_, by rfl,
    by decide +kernel⟩
  rw [hchoice.ofValue_eq]
  unfold Piece.ofSchema
  exact ends_bind.2 ⟨"Stock", _, ends_pure.2 ⟨rfl, rfl⟩, ends_pure.2 ⟨rfl, rfl⟩⟩

end Draft

end IdlBridge
