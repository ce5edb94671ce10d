import IdlBridge.Proofs.Idl.Spelling
import IdlBridge.Proto.Token
import IdlBridge.Text.Quoted

/-! # String literals of Protocol Buffers

    A literal is read code point by code point, so it is enough to know what each of them stands for
    between the quotes.
-/

namespace IdlBridge.Proto

open Idl Idl.Lexicon

/-- Between double quotes the text `raw` stands for `t`. -/
def Quotes (raw t : Text) : Prop :=
  ∀ rest, lexicon.literal '"' (raw ++ rest) =
    (t ++ (lexicon.literal '"' rest).1, raw.length + (lexicon.literal '"' rest).2)

theorem quotes_nil : Quotes [] [] := by
  intro rest
  simp

theorem Quotes.append {raw raw' t t' : Text} (h : Quotes raw t) (h' : Quotes raw' t') :
    Quotes (raw ++ raw') (t ++ t') := by
  intro rest
  rw [List.append_assoc, h, h', List.append_assoc, List.length_append, Nat.add_assoc]

theorem quotes_flatMap {f g : CodePoint → Text} {t : Text} (h : ∀ c ∈ t, Quotes (f c) (g c)) :
    Quotes (t.flatMap f) (t.flatMap g) := by
  induction t with
  | nil => exact quotes_nil
  | cons c t ih =>
    exact (h c List.mem_cons_self).append (ih fun d hd => h d (List.mem_cons_of_mem _ hd))

/-- Most code points stand for themselves. -/
theorem quotes_singleton {c : CodePoint} (hquote : c ≠ '"') (hslash : c ≠ '\\') :
    Quotes [c] [c] := by
  intro rest
  show lexicon.literal '"' (c :: rest) = _
  rw [literal.eq_def]
  simp [hquote, hslash, Nat.add_comm]

theorem quotes_self {t : Text} (h : ∀ c ∈ t, c ≠ '"' ∧ c ≠ '\\') : Quotes t t := by
  have := quotes_flatMap fun c hc => quotes_singleton (h c hc).1 (h c hc).2
  rwa [List.flatMap_singleton'] at this

theorem quotes_escape (c : CodePoint) : Quotes ['\\', c] [unescape c] := by
  intro rest
  show lexicon.literal '"' ('\\' :: c :: rest) = _
  rw [literal.eq_def]
  have hquote : ('\\' : CodePoint) ≠ '"' := by decide
  simp only [if_neg hquote, lexicon]
  rw [Nat.add_comm]
  rfl

/-- A control character that a data string escapes by its number. -/
def isControl (c : CodePoint) : Bool :=
  c.toNat < 0x20 && c != '\t' && c != '\n' && c != '\r'

/-- A data string stands for its text, unless there are control characters. -/
theorem quotes_inDataString {c : CodePoint} (h : isControl c = false) :
    Quotes (c.inDataString false) [c] := by
  have hescape : ∀ d : CodePoint, c = unescape d → Quotes ['\\', d] [c] := fun d hd =>
    hd ▸ quotes_escape d
  unfold CodePoint.inDataString
  split
  · next hc => exact hescape '"' hc
  split
  · next hc => exact hescape '\\' hc
  split
  · next hc => exact hescape 'n' hc
  split
  · next hc => exact hescape 'r' hc
  split
  · next hc => exact hescape 't' hc
  next hquote hslash hfeed hreturn htab =>
    -- The other characters that would be escaped by number are control characters, which are ruled
    -- out.
    have hlow : ¬c.toNat < 0x20 := by
      intro hlow
      simp [isControl, hlow, hfeed, hreturn, htab] at h
    rw [if_neg (by omega), if_neg (by omega), if_neg (by simp [hlow])]
    exact quotes_singleton hquote hslash

/-- What a code point of a data string is read back as.  The escape of a control character loses its
    backslash, which stands for nothing in front of `b`, `f` and `u`. -/
def reread (c : CodePoint) : Text :=
  if isControl c then (c.inDataString false).drop 1 else [c]

/-- A backslash in front of characters that mean nothing to a literal. -/
def Escapes (raw t : Text) : Prop :=
  raw = ('\\' : CodePoint) :: t ∧ t ≠ [] ∧
    ∀ d ∈ t, (d ≠ '"' ∧ d ≠ '\\') ∧ unescape d = d ∧ isControl d = false

instance (raw t : Text) : Decidable (Escapes raw t) := inferInstanceAs (Decidable (_ ∧ _))

theorem escapes_control {c : CodePoint} (h : isControl c = true) :
    Escapes (c.inDataString false) (reread c) := by
  have hascii : c.toNat < 128 := by
    simp only [isControl, Bool.and_eq_true, decide_eq_true_eq] at h
    omega
  exact CodePoint.forall_ascii
    (P := fun c => isControl c = true → Escapes (c.inDataString false) (reread c))
    (by decide) c hascii h

theorem quotes_reread (c : CodePoint) : Quotes (c.inDataString false) (reread c) := by
  cases hc : isControl c with
  | false =>
    rw [reread, hc, if_neg Bool.false_ne_true]
    exact quotes_inDataString hc
  | true =>
    obtain ⟨hescape, hne, hspec⟩ := escapes_control hc
    obtain ⟨d, ds, hreread⟩ := List.exists_cons_of_ne_nil hne
    rw [hreread] at hescape hspec ⊢
    obtain ⟨hd, hds⟩ := List.forall_mem_cons.1 hspec
    have hletter := quotes_escape d
    rw [hd.2.1] at hletter
    rw [hescape]
    exact hletter.append (quotes_self fun e he => (hds e he).1)

/-- What a data string is read back as. -/
def rereadText (t : Text) : Text := t.flatMap reread

theorem quotes_rereadText (t : Text) : Quotes (t.flatMap (·.inDataString false)) (rereadText t) :=
  quotes_flatMap fun c _ => quotes_reread c

/-- Control characters are all that a data string does not keep, for what is read back has none. -/
theorem rereadText_eq_self_iff {t : Text} :
    rereadText t = t ↔ ∀ c ∈ t, isControl c = false := by
  constructor
  · intro h c hc
    rw [← h] at hc
    obtain ⟨d, _, hcd⟩ := List.mem_flatMap.1 hc
    cases hd : isControl d with
    | true => exact ((escapes_control hd).2.2 c hcd).2.2
    | false =>
      rw [reread, hd, if_neg Bool.false_ne_true, List.mem_singleton] at hcd
      rwa [hcd]
  · intro h
    have hself : ∀ c ∈ t, reread c = [c] := fun c hc => by
      rw [reread, h c hc, if_neg Bool.false_ne_true]
    rw [rereadText, List.flatMap_congr hself, List.flatMap_singleton']

/-- A text between double quotes. -/
theorem spells_string {raw t : Text} (h : Quotes raw t) :
    lexicon.Spells ("\"" ++ (raw ++ "\"")) ([.string t] : List (Atom Word)) := by
  intro rest vs hrest
  have hliteral : lexicon.literal '"' ((raw ++ ("\"" : Text)) ++ rest) = (t, raw.length + 1) := by
    rw [List.append_assoc, h]
    show (t ++ (lexicon.literal '"' ('"' :: rest)).1, _ + (lexicon.literal '"' ('"' :: rest)).2) = _
    rw [literal_end, List.append_nil]
  have hlength : raw.length + 1 = (raw ++ ("\"" : Text)).length := by
    rw [List.length_append]
    rfl
  have hlex : (lexicon.lexeme '"' ((raw ++ ("\"" : Text)) ++ rest) : Lexeme Word) =
      ⟨'"' :: (raw ++ ("\"" : Text)), .token .string t⟩ := by
    rw [lexeme_of_isQuote (.inl rfl), hliteral, hlength, List.take_left]
  exact hrest.cons_token hlex

end IdlBridge.Proto
