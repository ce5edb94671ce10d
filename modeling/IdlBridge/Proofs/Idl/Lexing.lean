import IdlBridge.Idl.Lexer
import IdlBridge.Idl.Parser
import IdlBridge.Proofs.Decimal.Digits
import Mathlib.Data.List.Forall2

/-! # Texts and their atoms

    An *atom* is a token without its place and its comments.  `Lexes t us` says that a text has no
    comments and that its tokens are the atoms `us`.  A text is read from its end: whatever `rest`
    lexes to, a piece in front of it adds its own atoms, as long as the piece does not run into
    `rest`.  Words and numbers do unless `rest` breaks them.
-/

namespace IdlBridge.Idl

variable {κ : Type}

/-- A token without its place and its comments. -/
structure Atom (κ : Type) where
  kind : Kind κ
  value : Text

/-- The token is the atom, and has no comments. -/
structure Token.Is (t : Token κ) (u : Atom κ) : Prop where
  kind : t.kind = u.kind
  value : t.value = u.value
  comment : t.comment = []
  trailing : t.trailing = []

namespace Atom

/-- A delimiter. -/
def mark (d : Delimiter) : Atom κ := ⟨.delimiter d, [d.codePoint]⟩

/-- A word: a keyword, or else a name. -/
def word [Keyword κ] (w : Text) : Atom κ := ⟨Lexicon.wordKind w, w⟩

/-- A string. -/
def string (t : Text) : Atom κ := ⟨.string, t⟩

/-- A number. -/
def number (t : Text) : Atom κ := ⟨.number, t⟩

/-- An integer. -/
def int (i : Int) : Atom κ := ⟨.number, Text.ofInt i⟩

/-- A keyword. -/
def keyword [Keyword κ] (k : κ) : Atom κ := ⟨.keyword k, Keyword.spelling k⟩

/-- The end of the source. -/
def eof : Atom κ := ⟨.eof, []⟩

end Atom

namespace Lexicon

variable {lx : Lexicon}

/-- The atoms of lexemes; `none` if there is a comment among them. -/
def atoms? : List (Lexeme κ) → Option (List (Atom κ))
  | [] => some []
  | l :: rest =>
    match l.role with
    | .gap => atoms? rest
    | .token kind value => (atoms? rest).map (⟨kind, value⟩ :: ·)
    | _ => none

/-- The text has no comments, and its tokens are the atoms. -/
def Lexes [Keyword κ] (lx : Lexicon) (t : Text) (us : List (Atom κ)) : Prop :=
  atoms? (lx.lexemes t) = some us

/-! ## From atoms to tokens -/

/-- Without comments, the atoms become tokens one by one. -/
theorem place_of_atoms? {ls : List (Lexeme κ)} {us : List (Atom κ)} (h : atoms? ls = some us)
    (last : Option (Token κ)) (p : Position) :
    ∃ ts eof, lx.place last [] p ls = last.toList ++ ts ++ [eof] ∧ eof.Is .eof ∧
      List.Forall₂ Token.Is ts us := by
  induction ls generalizing us last p with
  | nil =>
    cases h
    have heof : Token.Is { kind := .eof, value := [], pos := p } (.eof : Atom κ) :=
      ⟨rfl, rfl, rfl, rfl⟩
    exact ⟨[], _, by simp [place], heof, .nil⟩
  | cons l ls ih =>
    rw [atoms?] at h
    cases hrole : l.role with
    | gap =>
      rw [hrole] at h
      obtain ⟨ts, eof, hts, heof, his⟩ := ih h last (lx.after p l)
      exact ⟨ts, eof, by rw [place.eq_def]; simp only [hrole, hts], heof, his⟩
    | token kind value =>
      rw [hrole] at h
      obtain ⟨vs, hvs, rfl⟩ := Option.map_eq_some_iff.1 h
      -- The token that came last is done, as no comment follows it.
      let t : Token κ := { kind, value, pos := p, comment := Text.join "\n" [] }
      obtain ⟨ts, eof, hts, heof, his⟩ := ih hvs (some t) (lx.after p l)
      refine ⟨t :: ts, eof, ?_, heof, .cons ⟨rfl, rfl, rfl, rfl⟩ his⟩
      rw [place.eq_def]
      simp only [hrole]
      show last.toList ++ lx.place (some t) [] _ ls = _
      rw [hts]
      simp
    | lineComment => simp [hrole] at h
    | blockComment body => simp [hrole] at h

variable [Keyword κ]

/-- The tokens of a text that lexes are its atoms. -/
theorem tokens_of_lexes {t : Text} {us : List (Atom κ)} (h : lx.Lexes t us) :
    ∃ ts eof, lx.tokens t = ts ++ [eof] ∧ eof.Is .eof ∧ List.Forall₂ Token.Is ts us := by
  obtain ⟨ts, eof, hts, heof, his⟩ := place_of_atoms? h none .start
  exact ⟨ts, eof, hts, heof, his⟩

/-! ## Cutting off a lexeme -/

theorem lexemesFrom_append (w rest : Text) :
    (lx.lexemesFrom w.length (w ++ rest) : List (Lexeme κ)) = lx.lexemes rest := by
  induction w with
  | nil => cases rest <;> rfl
  | cons c w ih => exact ih

theorem lexemes_cons_append {c : CodePoint} {w rest : Text} {role : Role κ}
    (h : lx.lexeme c (w ++ rest) = ⟨c :: w, role⟩) :
    lx.lexemes (c :: (w ++ rest)) = ⟨c :: w, role⟩ :: lx.lexemes rest := by
  rw [lexemes, lexemesFrom]
  simp only [h]
  congr 1
  exact lexemesFrom_append w rest

theorem Lexes.cons_gap {c : CodePoint} {rest : Text} {us : List (Atom κ)}
    (h : lx.Lexes rest us) (hc : (lx.lexeme c rest : Lexeme κ) = ⟨[c], .gap⟩) :
    lx.Lexes (c :: rest) us := by
  have := lexemes_cons_append (w := []) hc
  rw [Lexes, show c :: rest = c :: ([] ++ rest) from rfl, this]
  exact h

theorem Lexes.cons_token {c : CodePoint} {w rest : Text} {us : List (Atom κ)} {kind : Kind κ}
    {value : Text} (h : lx.Lexes rest us)
    (hc : lx.lexeme c (w ++ rest) = ⟨c :: w, .token kind value⟩) :
    lx.Lexes (c :: (w ++ rest)) (⟨kind, value⟩ :: us) := by
  rw [Lexes, lexemes_cons_append hc, atoms?]
  simp only
  rw [h]
  rfl

theorem lexes_nil : lx.Lexes [] ([] : List (Atom κ)) := rfl

/-! ## Delimiters and blanks -/

/-- The delimiters of a text that holds nothing but delimiters, spaces and line feeds. -/
def marks? : Text → Option (List Delimiter)
  | [] => some []
  | c :: rest =>
    match Delimiter.ofCodePoint? c with
    | some d => (marks? rest).map (d :: ·)
    | none => if c = ' ' ∨ c = '\n' then marks? rest else none

theorem marks?_append {p q : Text} {ds es : List Delimiter} (hp : marks? p = some ds)
    (hq : marks? q = some es) : marks? (p ++ q) = some (ds ++ es) := by
  induction p generalizing ds with
  | nil =>
    cases hp
    exact hq
  | cons c p ih =>
    rw [marks?] at hp
    rw [List.cons_append, marks?]
    split at hp
    · next d hd =>
      obtain ⟨ds, hds, rfl⟩ := Option.map_eq_some_iff.1 hp
      rw [ih hds]
      rfl
    · split at hp
      · next hblank => rw [if_pos hblank, ih hp]
      · cases hp

theorem Delimiter.codePoint_ofCodePoint? {c : CodePoint} {d : Delimiter}
    (h : Delimiter.ofCodePoint? c = some d) : d.codePoint = c ∧ c ≠ '#' ∧ c ≠ '/' := by
  have hrow : ∀ e ∈ Delimiter.table, e.1.codePoint = e.2.1 ∧ e.2.1 ≠ '#' ∧ e.2.1 ≠ '/' := by
    decide
  obtain ⟨e, he, rfl⟩ := Option.map_eq_some_iff.1 h
  have hc := List.find?_some he
  rw [decide_eq_true_eq] at hc
  exact hc ▸ hrow e (List.mem_of_find?_eq_some he)

theorem lexeme_delimiter {c : CodePoint} {d : Delimiter} (h : Delimiter.ofCodePoint? c = some d)
    (rest : Text) :
    (lx.lexeme c rest : Lexeme κ) = ⟨[c], .token (.delimiter d) [d.codePoint]⟩ := by
  obtain ⟨hd, hhash, hslash⟩ := Delimiter.codePoint_ofCodePoint? h
  rw [lexeme]
  simp [hhash, hslash, h, hd]

/-- The code point starts no comment, and is no delimiter and no quote. -/
def IsPlain (c : CodePoint) : Prop :=
  c ≠ '#' ∧ c ≠ '/' ∧ Delimiter.ofCodePoint? c = none ∧ c ≠ '"' ∧ c ≠ '\''

instance (c : CodePoint) : Decidable (IsPlain c) := inferInstanceAs (Decidable (_ ∧ _))

theorem lexeme_of_isPlain {c : CodePoint} (h : IsPlain c) (rest : Text) :
    (lx.lexeme c rest : Lexeme κ) =
      if lx.startsNumber c rest then
        ⟨c :: numberTail c rest, .token .number (c :: numberTail c rest)⟩
      else if lx.startsName c rest then
        ⟨c :: rest.takeWhile isNamePart,
          .token (wordKind (c :: rest.takeWhile isNamePart)) (c :: rest.takeWhile isNamePart)⟩
      else ⟨[c], .gap⟩ := by
  obtain ⟨hhash, hslash, hdelimiter, hdouble, hsingle⟩ := h
  rw [lexeme]
  simp [hhash, hslash, hdelimiter, hdouble, hsingle]

/-- The code point opens and closes a literal. -/
def IsQuote (c : CodePoint) : Prop := c = '"' ∨ c = '\''

instance (c : CodePoint) : Decidable (IsQuote c) := inferInstanceAs (Decidable (_ ∨ _))

theorem IsQuote.ne_backslash {quote : CodePoint} (h : IsQuote quote) : quote ≠ '\\' := by
  rcases h with rfl | rfl <;> decide

theorem lexeme_of_isQuote {quote : CodePoint} (h : IsQuote quote) (rest : Text) :
    (lx.lexeme quote rest : Lexeme κ) =
      ⟨quote :: rest.take (lx.literal quote rest).2, .token .string (lx.literal quote rest).1⟩ := by
  have hspec : quote ≠ '#' ∧ quote ≠ '/' ∧ Delimiter.ofCodePoint? quote = none := by
    rcases h with rfl | rfl <;> decide
  obtain ⟨hhash, hslash, hdelimiter⟩ := hspec
  have hquote : quote = '"' ∨ quote = '\'' := h
  rw [lexeme]
  simp [hhash, hslash, hdelimiter, hquote]

theorem literal_end (quote : CodePoint) (rest : Text) :
    lx.literal quote (quote :: rest) = ([], 1) := by
  rw [literal.eq_def]
  simp

theorem startsNumber_eq_false {c : CodePoint} (hdigit : c.isDigit = false)
    (hsign : isSign c = false) (rest : Text) : lx.startsNumber c rest = false := by
  unfold startsNumber
  rw [hdigit, hsign, Bool.false_and, Bool.or_false]

theorem startsName_eq_true {c : CodePoint} (h : (c.isLetter || c = '_') = true) (rest : Text) :
    lx.startsName c rest = true := by
  unfold startsName
  rw [h, Bool.true_or]

theorem startsName_eq_false {c : CodePoint} (h : (c.isLetter || c = '_') = false) (hpoint : c ≠ '.')
    (rest : Text) : lx.startsName c rest = false := by
  unfold startsName
  rw [h, Bool.false_or, decide_eq_false hpoint, Bool.and_false, Bool.false_and]

theorem lexeme_blank {c : CodePoint} (h : c = ' ' ∨ c = '\n') (rest : Text) :
    (lx.lexeme c rest : Lexeme κ) = ⟨[c], .gap⟩ := by
  have hspec : IsPlain c ∧ c.isDigit = false ∧ isSign c = false ∧
      (c.isLetter || c = '_') = false ∧ c ≠ '.' := by
    rcases h with rfl | rfl <;> decide
  obtain ⟨hplain, hdigit, hsign, hname, hpoint⟩ := hspec
  rw [lexeme_of_isPlain hplain, startsNumber_eq_false hdigit hsign,
    startsName_eq_false hname hpoint, if_neg Bool.false_ne_true, if_neg Bool.false_ne_true]

theorem Lexes.marks {p rest : Text} {ds : List Delimiter} {us : List (Atom κ)}
    (h : lx.Lexes rest us) (hp : marks? p = some ds) :
    lx.Lexes (p ++ rest) (ds.map Atom.mark ++ us) := by
  induction p generalizing ds with
  | nil =>
    cases hp
    exact h
  | cons c p ih =>
    rw [marks?] at hp
    split at hp
    · next d hd =>
      obtain ⟨es, hes, rfl⟩ := Option.map_eq_some_iff.1 hp
      exact (ih hes).cons_token (w := []) (lexeme_delimiter hd _)
    · split at hp
      · next hblank => exact (ih hp).cons_gap (lexeme_blank hblank _)
      · cases hp

/-! ## Words and numbers -/

/-- A word in front of the text ends there. -/
def Breaks (rest : Text) : Prop :=
  ∀ c ∈ rest.head?, isNamePart c = false

/-- A letter or an underscore, followed by letters, digits, underscores and points. -/
def isWord : Text → Bool
  | [] => false
  | c :: w => (c.isAsciiLetter || c = '_') && w.all isNamePart

theorem startsWord_spec {c : CodePoint} (h : (c.isAsciiLetter || c = '_') = true) :
    IsPlain c ∧ c.isDigit = false ∧ isSign c = false ∧ (c.isLetter || c = '_') = true := by
  rcases Bool.or_eq_true_iff.1 h with h | h
  · exact CodePoint.forall_isAsciiLetter (P := fun c => IsPlain c ∧ c.isDigit = false ∧
      isSign c = false ∧ (c.isLetter || c = '_') = true) (by decide) c h
  · rw [decide_eq_true_eq] at h
    subst h
    decide

theorem isNamePart_of_isWord {w : Text} (h : isWord w = true) : ∀ c ∈ w, isNamePart c = true := by
  cases w with
  | nil => cases h
  | cons c w =>
    rw [isWord, Bool.and_eq_true] at h
    intro d hd
    rcases List.mem_cons.1 hd with rfl | hd
    · rcases Bool.or_eq_true_iff.1 h.1 with h | h
      · exact CodePoint.forall_isAsciiLetter (P := fun c => isNamePart c = true) (by decide) d h
      · rw [decide_eq_true_eq] at h
        subst h
        decide
    · exact List.all_eq_true.1 h.2 d hd

theorem takeWhile_append_of_breaks {w rest : Text} (hw : w.all isNamePart = true)
    (h : Breaks rest) : (w ++ rest).takeWhile isNamePart = w := by
  rw [List.takeWhile_append_of_pos (List.all_eq_true.1 hw)]
  cases rest with
  | nil => simp
  | cons c rest => rw [List.takeWhile_cons_of_neg]; simp; simp [h c (by simp)]

theorem Lexes.word {w rest : Text} {us : List (Atom κ)} (h : lx.Lexes rest us)
    (hw : isWord w = true) (hrest : Breaks rest) : lx.Lexes (w ++ rest) (.word w :: us) := by
  cases w with
  | nil => cases hw
  | cons c w =>
    rw [isWord, Bool.and_eq_true] at hw
    obtain ⟨hplain, hdigit, hsign, hname⟩ := startsWord_spec hw.1
    refine h.cons_token ?_
    rw [lexeme_of_isPlain hplain, startsNumber_eq_false hdigit hsign, startsName_eq_true hname,
      if_neg Bool.false_ne_true, if_pos rfl, takeWhile_append_of_breaks hw.2 hrest]

/-- Digits are read to their end. -/
theorem numberTail_append {ds rest : Text} {previous : CodePoint}
    (hds : ∀ c ∈ ds, c.isAsciiDigit = true) (h : Breaks rest)
    (hprevious : previous ≠ 'e' ∧ previous ≠ 'E') : numberTail previous (ds ++ rest) = ds := by
  have hspec : ∀ c ∈ ds, c.isAlnum = true ∧ c ≠ 'e' ∧ c ≠ 'E' := fun c hc =>
    CodePoint.forall_isAsciiDigit (P := fun c => c.isAlnum = true ∧ c ≠ 'e' ∧ c ≠ 'E') (by decide) c
      (hds c hc)
  induction ds generalizing previous with
  | nil =>
    cases rest with
    | nil => rfl
    | cons c rest =>
      -- What breaks the number is no sign behind an exponent mark, as a digit comes before it.
      have hc := h c (by simp)
      simp only [isNamePart, Bool.or_eq_false_iff, decide_eq_false_iff_not] at hc
      rw [List.nil_append, numberTail]
      simp [hc, hprevious]
  | cons c ds ih =>
    obtain ⟨halnum, hexponent⟩ := hspec c (by simp)
    rw [List.cons_append, numberTail, halnum, Bool.true_or, Bool.true_or, if_pos rfl,
      ih (fun d hd => hds d (List.mem_cons_of_mem _ hd)) hexponent fun d hd =>
        hspec d (List.mem_cons_of_mem _ hd)]

theorem Lexes.digits {c : CodePoint} {ds rest : Text} {us : List (Atom κ)} (h : lx.Lexes rest us)
    (hplain : IsPlain c) (hstart : lx.startsNumber c (ds ++ rest) = true)
    (hexponent : c ≠ 'e' ∧ c ≠ 'E') (hds : ∀ d ∈ ds, d.isAsciiDigit = true) (hrest : Breaks rest) :
    lx.Lexes (c :: (ds ++ rest)) (⟨.number, c :: ds⟩ :: us) := by
  refine h.cons_token ?_
  rw [lexeme_of_isPlain hplain, if_pos hstart, numberTail_append hds hrest hexponent]

theorem Lexes.int {rest : Text} {us : List (Atom κ)} (h : lx.Lexes rest us) (i : Int)
    (hrest : Breaks rest) : lx.Lexes (Text.ofInt i ++ rest) (.int i :: us) := by
  have hspec : ∀ c : CodePoint, c.isAsciiDigit = true →
      IsPlain c ∧ c.isDigit = true ∧ c ≠ 'e' ∧ c ≠ 'E' := CodePoint.forall_isAsciiDigit (by decide)
  have hdigits := fun n => Text.isAsciiDigit_of_mem_ofNat (n := n)
  cases i with
  | ofNat n =>
    rw [Atom.int, Text.ofInt]
    cases hn : Text.ofNat n with
    | nil => exact absurd hn (Text.ofNat_ne_nil n)
    | cons c ds =>
      have hc := hdigits n
      rw [hn] at hc
      obtain ⟨hplain, hdigit, hexponent⟩ := hspec c (hc c (by simp))
      refine h.digits hplain ?_ hexponent (fun d hd => hc d (List.mem_cons_of_mem _ hd)) hrest
      unfold startsNumber
      rw [hdigit, Bool.true_or]
  | negSucc n =>
    -- A minus starts a number if a digit follows.
    refine h.digits (by decide) ?_ (by decide) (hdigits (n + 1)) hrest
    cases hn : Text.ofNat (n + 1) with
    | nil => exact absurd hn (Text.ofNat_ne_nil (n + 1))
    | cons d ds =>
      have hd := (hspec d (hdigits (n + 1) d (by simp [hn]))).2.1
      show (_ || (true && (d.isDigit || _))) = true
      rw [hd, Bool.true_or, Bool.true_and, Bool.or_true]

end Lexicon

end IdlBridge.Idl
