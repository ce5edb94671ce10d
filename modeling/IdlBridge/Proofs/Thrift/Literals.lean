import IdlBridge.Proofs.Idl.Lexing
import IdlBridge.Thrift.Token

/-! # String literals of Thrift

    A payload is put between quotes with a backslash in front of each quote of the same kind, and
    nothing else is changed in it.  Read back, a backslash in front of the quote is dropped and all
    other characters stand for themselves, backslashes too.

    So there is one thing that can go wrong: a backslash at the end of the payload takes the closing
    quote for its own.  The literal then goes on to the end of the text, and its value ends with a
    quote where the payload ends with a backslash.
-/

namespace IdlBridge.Thrift

open Idl Idl.Lexicon

/-- The payload with a backslash in front of each quote. -/
def escaped (quote : CodePoint) (payload : Text) : Text :=
  Text.replaceChar quote ['\\', quote] payload

/-- The payload as a literal. -/
def inQuotes (quote : CodePoint) (payload : Text) : Text :=
  quote :: (escaped quote payload ++ [quote])

variable {quote : CodePoint}

/-! ## Character by character -/

/-- A backslash in front of the quote is dropped. -/
theorem literal_escape (h : IsQuote quote) (rest : Text) :
    lexicon.literal quote ('\\' :: quote :: rest) =
      (quote :: (lexicon.literal quote rest).1, (lexicon.literal quote rest).2 + 2) := by
  have hquote : ('\\' : CodePoint) ≠ quote := h.ne_backslash.symm
  rw [literal.eq_def]
  simp [hquote, lexicon]

/-- A character that does not escape a quote behind it stands for itself. -/
theorem literal_cons {c : CodePoint} (hc : c ≠ quote) {rest : Text}
    (hrest : c = '\\' → rest.head? ≠ some quote) :
    lexicon.literal quote (c :: rest) =
      (c :: (lexicon.literal quote rest).1, (lexicon.literal quote rest).2 + 1) := by
  rw [literal.eq_def]
  simp only [if_neg hc]
  by_cases hslash : c = '\\'
  · -- The backslash is read together with the character behind it, if there is one.
    cases rest with
    | nil => simp [hslash, literal]
    | cons d rest =>
      have hd : d ≠ quote := fun hd => hrest hslash (congrArg some hd)
      simp [hslash, lexicon, hd]
  · simp [hslash]

/-! ## Payloads -/

theorem escaped_cons_quote (payload : Text) :
    escaped quote (quote :: payload) = ('\\' : CodePoint) :: quote :: escaped quote payload := by
  simp [escaped, Text.replaceChar]

theorem escaped_cons {c : CodePoint} (hc : c ≠ quote) (payload : Text) :
    escaped quote (c :: payload) = c :: escaped quote payload := by
  simp [escaped, Text.replaceChar, hc]

theorem escaped_append (s t : Text) : escaped quote (s ++ t) = escaped quote s ++ escaped quote t :=
  List.flatMap_append

/-- An escaped payload does not start with the quote. -/
theorem head?_escaped (h : IsQuote quote) {payload : Text} (hne : payload ≠ []) (rest : Text) :
    (escaped quote payload ++ rest).head? ≠ some quote := by
  cases payload with
  | nil => exact absurd rfl hne
  | cons c payload =>
    by_cases hc : c = quote
    · rw [hc, escaped_cons_quote]
      intro hhead
      exact h.ne_backslash (Option.some.inj hhead).symm
    · rw [escaped_cons hc]
      intro hhead
      exact hc (Option.some.inj hhead)

/-- Unless a payload ends with a backslash, it is read back in front of whatever is behind it. -/
theorem literal_escaped (h : IsQuote quote) {payload : Text}
    (hend : payload.getLast? ≠ some ('\\' : CodePoint)) (rest : Text) :
    lexicon.literal quote (escaped quote payload ++ rest) =
      (payload ++ (lexicon.literal quote rest).1,
        (escaped quote payload).length + (lexicon.literal quote rest).2) := by
  induction payload with
  | nil => simp [escaped, Text.replaceChar]
  | cons c payload ih =>
    -- Behind a backslash there is more of the payload, which does not start with the quote.
    have hmore : c = '\\' → payload ≠ [] := by
      intro hslash hnil
      rw [hnil, hslash] at hend
      exact hend rfl
    have hlater : payload.getLast? ≠ some ('\\' : CodePoint) := by
      cases payload with
      | nil => simp
      | cons d payload => rwa [List.getLast?_cons_cons] at hend
    by_cases hc : c = quote
    · rw [hc, escaped_cons_quote, List.cons_append, List.cons_append, literal_escape h, ih hlater,
        List.cons_append, List.length_cons, List.length_cons]
      congr 1
      omega
    · have hrest : c = '\\' → (escaped quote payload ++ rest).head? ≠ some quote :=
        fun hslash => head?_escaped h (hmore hslash) rest
      rw [escaped_cons hc, List.cons_append, literal_cons hc hrest, ih hlater, List.cons_append,
        List.length_cons]
      congr 1
      omega

/-! ## Literals -/

/-- A literal that takes a whole text is its only token. -/
theorem tokens_of_literal (h : IsQuote quote) {body value : Text}
    (hbody : lexicon.literal quote body = (value, body.length)) :
    tokens (quote :: body) =
      [{ kind := .string, value, pos := .start },
        { kind := .eof, value := [], pos := Position.start.walk (quote :: body) }] := by
  have hlex : (lexicon.lexeme quote (body ++ []) : Lexeme Word) =
      ⟨quote :: body, .token .string value⟩ := by
    rw [List.append_nil, lexeme_of_isQuote h, hbody, List.take_length]
  have hlexemes : (lexicon.lexemes (quote :: body) : List (Lexeme Word)) =
      [⟨quote :: body, .token .string value⟩] := by
    have := lexemes_cons_append hlex
    rwa [List.append_nil] at this
  rw [tokens, Lexicon.tokens, hlexemes]
  rfl

theorem tokens_inQuotes (h : IsQuote quote) {payload : Text}
    (hend : payload.getLast? ≠ some ('\\' : CodePoint)) :
    tokens (inQuotes quote payload) =
      [{ kind := .string, value := payload, pos := .start },
        { kind := .eof, value := [], pos := Position.start.walk (inQuotes quote payload) }] := by
  have hbody := literal_escaped h hend [quote]
  rw [literal_end, List.append_nil] at hbody
  apply tokens_of_literal h
  rw [hbody, List.length_append]
  rfl

/-- A backslash at the end takes the closing quote into the literal, which is not closed then. -/
theorem tokens_inQuotes_backslash (h : IsQuote quote) (front : Text) :
    tokens (inQuotes quote (front ++ [('\\' : CodePoint)])) =
      [{ kind := .string, value := front ++ [quote], pos := .start },
        { kind := .eof, value := [],
          pos := Position.start.walk (inQuotes quote (front ++ [('\\' : CodePoint)])) }] := by
  have hopen : escaped quote (front ++ [('\\' : CodePoint)]) ++ [quote] =
      escaped quote (front ++ [quote]) := by
    rw [escaped_append, escaped_append, escaped_cons h.ne_backslash.symm, escaped_cons_quote,
      List.append_assoc]
    rfl
  have hlast : (front ++ [quote]).getLast? ≠ some ('\\' : CodePoint) := by
    rw [List.getLast?_concat]
    exact fun hquote => h.ne_backslash (Option.some.inj hquote)
  have hbody := literal_escaped h hlast []
  rw [List.append_nil, literal, List.append_nil, Nat.add_zero] at hbody
  apply tokens_of_literal h
  rw [hopen, hbody]

/-- The literal of a payload is one token that holds the payload, and the end of the text behind it,
    exactly if the payload does not end with a backslash. -/
theorem tokens_inQuotes_iff (h : IsQuote quote) (payload : Text) :
    (tokens (inQuotes quote payload)).map (fun t => (t.kind, t.value)) =
        [(.string, payload), (.eof, [])] ↔
      payload.getLast? ≠ some ('\\' : CodePoint) := by
  constructor
  · intro htokens hend
    obtain ⟨front, rfl⟩ := List.getLast?_eq_some_iff.1 hend
    rw [tokens_inQuotes_backslash h] at htokens
    have hvalue : front ++ [quote] = front ++ [('\\' : CodePoint)] :=
      (Prod.mk.inj (List.cons.inj htokens).1).2
    exact h.ne_backslash (List.cons.inj (List.append_cancel_left hvalue)).1
  · intro hend
    rw [tokens_inQuotes h hend]
    rfl

/-- A payload with quotes of both kinds, backslashes, a line feed and marks of comments is kept; its
    front part that ends with a backslash is not. -/
theorem tokens_inQuotes_quotedNote :
    (tokens "'it\\'s \"\\\\' # \\\\\"\n//'").map (fun t => (t.kind, t.value)) =
        ([(.string, "it's \"\\' # \\\\\"\n//"), (.eof, [])] : List (Kind Word × Text)) ∧
      (tokens "'it\\'s \"\\'").map (fun t => (t.kind, t.value)) ≠
        ([(.string, "it's \"\\"), (.eof, [])] : List (Kind Word × Text)) := by
  have hquote : IsQuote '\'' := .inr rfl
  constructor
  · exact (tokens_inQuotes_iff hquote "it's \"\\' # \\\\\"\n//").2 (by decide)
  · exact fun h => (tokens_inQuotes_iff hquote "it's \"\\").1 h (by decide)

end IdlBridge.Thrift
