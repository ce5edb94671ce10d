import IdlBridge.Proofs.Decimal.Written
import IdlBridge.Proofs.Idl.Constant
import IdlBridge.Value.Json

/-! # Aggregates

    The data that an aggregate literal of a source can hold, and what JSON text it has.  Not all of
    it comes back from that text when the text is read as a document: `Survives` says which does.
-/

namespace IdlBridge

/-- The text has no code point beyond the basic plane. -/
def Text.IsBasic (t : Text) : Prop := ∀ c ∈ t, c.toNat < 0x10000

instance (t : Text) : Decidable t.IsBasic := inferInstanceAs (Decidable (∀ c ∈ t, _))

namespace Value

/-- What an aggregate literal can hold: truth values, integers, finite floating-point numbers,
    texts, lists, and mappings from different texts. -/
inductive IsAggregate : Value → Prop
  | bool (b : Bool) : IsAggregate (.bool b)
  | int (i : Int) : IsAggregate (.int i)
  | float (negative : Bool) {m : Nat} {q : Int} (hc : Binary64.IsCanonical m q) :
      IsAggregate (.float (.finite negative m q))
  | text (t : Text) : IsAggregate (.text t)
  | list {xs : List Value} (hxs : ∀ x ∈ xs, IsAggregate x) : IsAggregate (.list xs)
  | map {es : Entries} (hkeys : ∀ e ∈ es, e.1 = .text e.1.asText)
      (hapart : (es.map fun e => e.1.asText).Nodup) (hes : ∀ e ∈ es, IsAggregate e.2) :
      IsAggregate (.map es)

/-- The data comes back from its JSON text.  An integer must not have too many digits to be
    written, a floating-point number must be written with a point, a text must not have code points
    that are escaped in two units, and a key must not be too long. -/
inductive Survives : Value → Prop
  | bool (b : Bool) : Survives (.bool b)
  | int {i : Int} (hi : i.natAbs < Nat.pow 10 Numeral.maxDecimalDigits) : Survives (.int i)
  | float {x : Binary64} (hx : ('.' : CodePoint) ∈ x.toText .data) : Survives (.float x)
  | text {t : Text} (ht : t.IsBasic) : Survives (.text t)
  | list {xs : List Value} (hxs : ∀ x ∈ xs, Survives x) : Survives (.list xs)
  | map {es : Entries}
      (hkeys : ∀ e ∈ es, e.1.asText.IsBasic ∧ (e.1.asText.dataString true).length ≤ 1024)
      (hes : ∀ e ∈ es, Survives e.2) : Survives (.map es)

theorem survives_list {xs : List Value} : Survives (.list xs) ↔ ∀ x ∈ xs, x.Survives :=
  ⟨fun h => by cases h with | list hxs => exact hxs, .list⟩

theorem survives_map {es : Entries} : Survives (.map es) ↔
    (∀ e ∈ es, e.1.asText.IsBasic ∧ (e.1.asText.dataString true).length ≤ 1024) ∧
      ∀ e ∈ es, e.2.Survives :=
  ⟨fun h => by cases h with | map hkeys hes => exact ⟨hkeys, hes⟩, fun h => .map h.1 h.2⟩

/-! ## JSON text -/

theorem json?_list {α : Type} {data : α → Value} {text : α → Text} {ps : List α}
    (h : ∀ p ∈ ps, (data p).json? = some (text p)) :
    (Value.list (ps.map data)).json? = some ("[" ++ Text.join ", " (ps.map text) ++ "]") := by
  have hitems : json?.items (ps.map data) = some (ps.map text) := by
    induction ps with
    | nil => rfl
    | cons p ps ih =>
      obtain ⟨hp, hps⟩ := List.forall_mem_cons.1 h
      rw [List.map_cons, json?.items, hp, ih hps]
      rfl
  rw [json?, hitems]
  rfl

theorem json?_list_eq_none {xs : List Value} {x : Value} (hx : x ∈ xs) (h : x.json? = none) :
    (Value.list xs).json? = none := by
  have hitems : json?.items xs = none := by
    induction xs with
    | nil => cases hx
    | cons y ys ih =>
      rw [json?.items]
      rcases List.mem_cons.1 hx with rfl | hx
      · rw [h]
      · rw [ih hx]
        cases y.json? <;> rfl
  rw [json?, hitems]
  rfl

theorem json?_map {α : Type} {key : α → Text} {data : α → Value} {text : α → Text} {ps : List α}
    (h : ∀ p ∈ ps, (data p).json? = some (text p)) :
    (Value.map (ps.map fun p => (.text (key p), data p))).json? =
      some ("\x7b" ++ Text.join ", " (ps.map fun p =>
        (key p).dataString true ++ ": " ++ text p) ++ "\x7d") := by
  have hentries : json?.entries (ps.map fun p => (.text (key p), data p)) =
      some (ps.map fun p => (key p).dataString true ++ ": " ++ text p) := by
    induction ps with
    | nil => rfl
    | cons p ps ih =>
      obtain ⟨hp, hps⟩ := List.forall_mem_cons.1 h
      rw [List.map_cons, json?.entries, hp, ih hps]
      rfl
  rw [json?, hentries]
  rfl

theorem json?_map_eq_none {es : Entries} {e : Value × Value} (he : e ∈ es)
    (h : e.2.json? = none) : (Value.map es).json? = none := by
  have hentries : json?.entries es = none := by
    induction es with
    | nil => cases he
    | cons f fs ih =>
      obtain ⟨k, v⟩ := f
      rw [json?.entries]
      rcases List.mem_cons.1 he with rfl | he
      · rw [show v.json? = none from h]
        cases k.keyJson? <;> rfl
      · rw [ih he]
        cases k.keyJson? <;> cases v.json? <;> rfl
  rw [json?, hentries]
  rfl

end Value

end IdlBridge
