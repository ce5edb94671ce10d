import IdlBridge.Proofs.Text
import IdlBridge.Text.Quoted
import IdlBridge.Yaml.Scalar

/-! # Data strings as quoted scalars

    A data string in ASCII is read as a scalar in double quotes.  Every escape that a data string
    uses means the same in a document, but for one thing: a document does not put two surrogates
    together, so a code point beyond `0xFFFF` is read as its two UTF-16 units.
-/

namespace IdlBridge

/-! ## Hexadecimal digits -/

namespace Text

theorem valueWith_cons_zero {base : Nat} (t : Text) :
    valueWith CodePoint.hexValue base (('0' : CodePoint) :: t) =
      valueWith CodePoint.hexValue base t := by
  rw [valueWith, List.foldl_cons]
  have hzero : 0 * base + (CodePoint.ofChar '0').hexValue = 0 := by
    rw [Nat.zero_mul]
    rfl
  rw [hzero]
  rfl

theorem valueWith_padZeros {base : Nat} (width : Nat) (t : Text) :
    valueWith CodePoint.hexValue base (padZeros width t) = valueWith CodePoint.hexValue base t := by
  unfold padZeros
  generalize width - t.length = n
  induction n with
  | zero => rfl
  | succ n ih =>
    rw [List.replicate_succ, List.cons_append, valueWith_cons_zero, ih]

/-- The digits of a number in base sixteen make it up. -/
theorem toDigits_sixteen (n : Nat) :
    (∀ c ∈ (Nat.toDigits 16 n).map CodePoint.ofChar, c.isHexDigit = true) ∧
      valueWith CodePoint.hexValue 16 ((Nat.toDigits 16 n).map CodePoint.ofChar) = n := by
  have hdigit : ∀ d < 16, (CodePoint.ofChar (Nat.digitChar d)).isHexDigit = true ∧
      (CodePoint.ofChar (Nat.digitChar d)).hexValue = d := by decide
  induction n using Nat.strongRecOn with
  | ind n ih =>
    by_cases h : n < 16
    · rw [Nat.toDigits_of_lt_base h]
      refine ⟨?_, ?_⟩
      · intro c hc
        rw [List.mem_singleton.1 hc]
        exact (hdigit n h).1
      · show 0 * 16 + (CodePoint.ofChar (Nat.digitChar n)).hexValue = n
        rw [(hdigit n h).2, Nat.zero_mul, Nat.zero_add]
    · -- The last digit is the remainder, and the ones before it are those of the quotient.
      obtain ⟨hmem, hvalue⟩ := ih (n / 16) (by omega)
      obtain ⟨hlast, hlastValue⟩ := hdigit (n % 16) (Nat.mod_lt n (by decide))
      rw [Nat.toDigits_of_base_le (by decide) (Nat.le_of_not_lt h), List.map_append]
      refine ⟨?_, ?_⟩
      · intro c hc
        rcases List.mem_append.1 hc with hc | hc
        · exact hmem c hc
        · rw [List.mem_singleton.1 hc]
          exact hlast
      · rw [valueWith, List.foldl_append]
        show valueWith CodePoint.hexValue 16 ((Nat.toDigits 16 (n / 16)).map CodePoint.ofChar) *
          16 + (CodePoint.ofChar (Nat.digitChar (n % 16))).hexValue = n
        rw [hvalue, hlastValue]
        omega

/-- Four digits are enough for a unit. -/
theorem hex_four {n : Nat} (h : n < 0x10000) :
    (hex 4 n).length = 4 ∧ (∀ c ∈ hex 4 n, c.isHexDigit = true) ∧
      valueWith CodePoint.hexValue 16 (hex 4 n) = n := by
  obtain ⟨hmem, hvalue⟩ := toDigits_sixteen n
  have hlength : ((Nat.toDigits 16 n).map CodePoint.ofChar).length ≤ 4 := by
    rw [List.length_map]
    exact (Nat.length_toDigits_le_iff (by decide) (by decide)).2 h
  refine ⟨?_, ?_, ?_⟩
  · unfold hex padZeros
    rw [List.length_append, List.length_replicate]
    omega
  · intro c hc
    rcases List.mem_append.1 hc with hc | hc
    · rw [List.eq_of_mem_replicate hc]
      decide
    · exact hmem c hc
  · unfold hex
    rw [valueWith_padZeros, hvalue]

end Text

/-! ## UTF-16 units -/

namespace CodePoint

/-- The UTF-16 units of a code point, each as a code point of its own. -/
def units (c : CodePoint) : Text :=
  if c.toNat < 0x10000 then [c]
  else
    let n := c.toNat - 0x10000
    [ofNat (0xD800 + n / 0x400), ofNat (0xDC00 + n % 0x400)]

/-- A character that stands for itself on a line of a document. -/
def IsInline (c : CodePoint) : Prop := 0x20 ≤ c.toNat ∧ c.toNat ≤ 0x7E

instance (c : CodePoint) : Decidable c.IsInline := inferInstanceAs (Decidable (_ ∧ _))

theorem ofNat_toNat (c : CodePoint) : ofNat c.toNat = c := by
  rw [ofNat, ofNat?, dif_pos c.isLt]
  rfl

/-- What is decided of all inline characters. -/
theorem forall_isInline {P : CodePoint → Prop}
    (h : ∀ n, (hn : n < 128) → IsInline ⟨n, Nat.lt_trans hn (by decide)⟩ →
      P ⟨n, Nat.lt_trans hn (by decide)⟩) {c : CodePoint} (hc : c.IsInline) : P c :=
  forall_ascii (P := fun c => c.IsInline → P c) h c (Nat.lt_of_le_of_lt hc.2 (by decide)) hc

/-- How a code point appears in a data string: as itself, as a backslash and a letter, or as the
    escapes of its units. -/
inductive Spelled (c : CodePoint) : Text → Prop
  | plain (hinline : c.IsInline) (hquote : c ≠ '"') (hbackslash : c ≠ '\\') : Spelled c [c]
  | short (letter : CodePoint)
      (hletter : Yaml.Flow.escapes.find? (·.1 = letter) = some (letter, c.toNat))
      (hinline : letter.IsInline) : Spelled c ['\\', letter]
  | unit (h : c.toNat < 0x10000) : Spelled c ("\\u" ++ Text.hex 4 c.toNat)
  | pair (h : ¬c.toNat < 0x10000) : Spelled c
      ("\\u" ++ Text.hex 4 (0xD800 + (c.toNat - 0x10000) / 0x400) ++
        "\\u" ++ Text.hex 4 (0xDC00 + (c.toNat - 0x10000) % 0x400))

theorem spelled_inDataString (c : CodePoint) : Spelled c (c.inDataString true) := by
  unfold inDataString
  split
  · next h => exact h ▸ .short '"' (by decide) (by decide)
  split
  · next h => exact h ▸ .short '\\' (by decide) (by decide)
  split
  · next h => exact h ▸ .short 'n' (by decide) (by decide)
  split
  · next h => exact h ▸ .short 'r' (by decide) (by decide)
  split
  · next h => exact h ▸ .short 't' (by decide) (by decide)
  split
  · next h => exact .short 'b' (by rw [h]; decide) (by decide)
  split
  · next h => exact .short 'f' (by rw [h]; decide) (by decide)
  split
  · -- What is no ordinary character is spelled as one unit, or as a pair of them.
    unfold unitEscapes
    split
    · next h => exact .unit h
    · next h => exact .pair h
  · next hquote hbackslash _ _ _ _ _ hplain =>
    refine .plain ?_ hquote hbackslash
    have : ¬c.toNat < 0x20 ∧ ¬0x7E < c.toNat := by simpa using hplain
    unfold IsInline
    omega

theorem isInline_of_mem_hex {n : Nat} (h : n < 0x10000) : ∀ c ∈ Text.hex 4 n, c.IsInline := by
  intro c hc
  have hhex := (Text.hex_four h).2.1 c hc
  have hle : c.toNat < 128 := by
    unfold isHexDigit at hhex
    rcases Bool.or_eq_true_iff.1 hhex with hhex | hhex
    · rcases Bool.or_eq_true_iff.1 hhex with hhex | hhex
      · exact Nat.lt_of_le_of_lt (toNat_lt_of_within hhex) (by decide)
      · exact Nat.lt_of_le_of_lt (toNat_lt_of_within hhex) (by decide)
    · exact Nat.lt_of_le_of_lt (toNat_lt_of_within hhex) (by decide)
  exact forall_ascii (P := fun c => c.isHexDigit = true → c.IsInline) (by decide) c hle hhex

theorem Spelled.isInline {c : CodePoint} {s : Text} (h : Spelled c s) : ∀ d ∈ s, d.IsInline := by
  have hunit : ∀ n < 0x10000, ∀ d ∈ ("\\u" ++ Text.hex 4 n : Text), d.IsInline := by
    intro n hn d hd
    rcases List.mem_append.1 hd with hd | hd
    · exact (by decide : ∀ d ∈ ("\\u" : Text), d.IsInline) d hd
    · exact isInline_of_mem_hex hn d hd
  cases h with
  | plain hinline _ _ => exact fun d hd => List.mem_singleton.1 hd ▸ hinline
  | short letter _ hinline =>
    exact List.forall_mem_cons.2 ⟨by decide, List.forall_mem_singleton.2 hinline⟩
  | unit h => exact hunit _ h
  | pair h =>
    have hlt := c.isLt
    intro d hd
    rw [List.append_assoc] at hd
    rcases List.mem_append.1 hd with hd | hd
    · exact hunit _ (by omega) d hd
    · exact hunit _ (by omega) d hd

/-- Only a space is spelled with a space in front. -/
theorem Spelled.exists_cons {c : CodePoint} {s : Text} (h : Spelled c s) (hc : c ≠ ' ') :
    ∃ d t, s = d :: t ∧ d ≠ ' ' := by
  cases h with
  | plain _ _ _ => exact ⟨c, [], rfl, hc⟩
  | short letter _ _ => exact ⟨'\\', [letter], rfl, by decide⟩
  | unit _ => exact ⟨'\\', _, rfl, by decide⟩
  | pair _ => exact ⟨'\\', _, rfl, by decide⟩

end CodePoint

namespace Text

/-- The UTF-16 units of a text. -/
def units (t : Text) : Text :=
  t.flatMap CodePoint.units

theorem isInline_of_mem_dataString (t : Text) : ∀ c ∈ t.dataString true, c.IsInline := by
  intro c hc
  have hquote : ∀ c ∈ ("\"" : Text), c.IsInline := by decide
  rcases List.mem_append.1 hc with hc | hc
  · rcases List.mem_append.1 hc with hc | hc
    · exact hquote c hc
    · obtain ⟨d, -, hd⟩ := List.mem_flatMap.1 hc
      exact (CodePoint.spelled_inDataString d).isInline c hd
  · exact hquote c hc

end Text

namespace Yaml

/-! ## Cursors on one line -/

/-- A cursor on the first line of a document. -/
def Cursor.inline (rest : Text) (i : Nat) : Cursor := ⟨rest, i, 0, i⟩

namespace Cursor

variable {c : CodePoint} {rest : Text} {i : Nat}

theorem next_inline (hc : c.IsInline) : (inline (c :: rest) i).next = inline rest (i + 1) := by
  have hchar := CodePoint.forall_isInline
    (P := fun c => c.toNat ≠ 0x0D ∧ isBreak c = false ∧ c ≠ byteOrderMark) (by decide) hc
  unfold inline next
  simp only [if_neg hchar.1, hchar.2.1, if_neg hchar.2.2, Bool.false_eq_true, if_false]

theorem forward_inline {t : Text} (ht : ∀ c ∈ t, c.IsInline) :
    (inline (t ++ rest) i).forward t.length = inline rest (i + t.length) := by
  induction t generalizing i with
  | nil => rfl
  | cons c t ih =>
    obtain ⟨hc, ht⟩ := List.forall_mem_cons.1 ht
    rw [List.length_cons, List.cons_append, forward, next_inline hc, ih ht, Nat.add_assoc,
      Nat.add_comm 1]

theorem peek_inline : (inline (c :: rest) i).peek = c := rfl

/-- A run that ends at once moves nothing. -/
theorem skip_of_neg {c : Cursor} {p : CodePoint → Bool} (h : p c.peek = false) :
    c.run p = [] ∧ c.skip p = c := by
  have hrun : c.run p = [] := by
    unfold run
    unfold peek at h
    cases hrest : c.rest with
    | nil => rfl
    | cons x rest =>
      rw [hrest] at h
      exact List.takeWhile_cons_of_neg (by rw [show p x = false from h]; decide)
  rw [skip, hrun]
  exact ⟨rfl, rfl⟩

end Cursor

/-! ## Words of quoted scalars -/

namespace Flow

open Cursor

variable {c : CodePoint} {rest done : Text} {i bound : Nat}

theorem word_ordinary (hc : isOrdinary c = true) (hinline : c.IsInline) :
    word true (bound + 1) (inline (c :: rest) i) done =
      word true (bound + 1) (inline rest (i + 1)) (done ++ [c]) := by
  have hrun : (inline (c :: rest) i).run isOrdinary = c :: (inline rest (i + 1)).run isOrdinary :=
    List.takeWhile_cons_of_pos hc
  rw [word, word, hrun]
  simp only [List.length_cons, forward, next_inline hinline, List.append_assoc,
    List.singleton_append]

/-- A word stands where it is at a character that needs care. -/
theorem word_stay (hc : isOrdinary c = false) :
    (inline (c :: rest) i).run isOrdinary = [] :=
  (skip_of_neg (c := inline (c :: rest) i) hc).1

theorem word_apostrophe : word true (bound + 1) (inline (('\'' : CodePoint) :: rest) i) done =
    word true bound (inline rest (i + 1)) (done ++ [('\'' : CodePoint)]) := by
  rw [word, word_stay (by decide), List.append_nil]
  simp only [List.length_nil, forward, peek_inline, next_inline (c := '\'') (by decide)]
  rfl

theorem word_escape {t : Text} {c : Cursor} (h : escape (inline rest (i + 1)) = .ok (t, c)) :
    word true (bound + 1) (inline (('\\' : CodePoint) :: rest) i) done =
      word true bound c (done ++ t) := by
  rw [word, word_stay (by decide), List.append_nil]
  simp only [List.length_nil, forward, peek_inline, next_inline (c := '\\') (by decide), h]
  rfl

theorem word_stop (hc : c = ' ' ∨ c = '"') :
    word true (bound + 1) (inline (c :: rest) i) done = .ok (done, inline (c :: rest) i) := by
  rcases hc with rfl | rfl
  · rw [word, word_stay (by decide), List.append_nil]
    rfl
  · rw [word, word_stay (by decide), List.append_nil]
    rfl

/-- An escape by its first character. -/
theorem escape_inline : escape (inline (c :: rest) i) =
    match escapes.find? (·.1 = c) with
    | some (_, n) => .ok ([CodePoint.ofNat n], (inline (c :: rest) i).next)
    | none =>
      match escapeLength? c with
      | some n =>
        let ds := (inline (c :: rest) i).next.rest.take n
        if ds.length = n ∧ ds.all CodePoint.isHexDigit then
          match CodePoint.ofNat? (Text.valueWith CodePoint.hexValue 16 ds) with
          | some y => .ok ([y], (inline (c :: rest) i).next.forward n)
          | none => .error (.impossible .codePoint)
        else .error (.malformed .badEscape)
      | none =>
        if isBreak c then allBreaks (inline (c :: rest) i).lineBreak.2
        else .error (.malformed .badEscape) := rfl

/-- An escape of one letter. -/
theorem escape_letter {n : Nat} (h : escapes.find? (·.1 = c) = some (c, n)) (hinline : c.IsInline) :
    escape (inline (c :: rest) i) = .ok ([CodePoint.ofNat n], inline rest (i + 1)) := by
  rw [escape_inline, h, next_inline hinline]

/-- The escape of a unit. -/
theorem escape_unit {n : Nat} (h : n < 0x10000) :
    escape (inline (('u' : CodePoint) :: (Text.hex 4 n ++ rest)) i) =
      .ok ([CodePoint.ofNat n], inline rest (i + 5)) := by
  obtain ⟨hlength, hdigits, hvalue⟩ := Text.hex_four h
  have hnone : escapes.find? (·.1 = ('u' : CodePoint)) = none := by decide
  have hlong : escapeLength? 'u' = some 4 := by decide
  have hnext : (inline (('u' : CodePoint) :: (Text.hex 4 n ++ rest)) i).next =
      inline (Text.hex 4 n ++ rest) (i + 1) := next_inline (by decide)
  have htake : (inline (Text.hex 4 n ++ rest) (i + 1)).rest.take 4 = Text.hex 4 n :=
    List.take_left' hlength
  have hforward : (inline (Text.hex 4 n ++ rest) (i + 1)).forward 4 = inline rest (i + 5) := by
    have hfour : (inline (Text.hex 4 n ++ rest) (i + 1)).forward (Text.hex 4 n).length = _ :=
      forward_inline (CodePoint.isInline_of_mem_hex h)
    rwa [hlength] at hfour
  have hpoint : CodePoint.ofNat? n = some (CodePoint.ofNat n) := by
    rw [CodePoint.ofNat, CodePoint.ofNat?, dif_pos (by omega)]
    rfl
  have hall : (Text.hex 4 n).all CodePoint.isHexDigit = true := List.all_eq_true.2 hdigits
  rw [escape_inline, hnone, hlong]
  simp only [hnext, htake, hlength, hall, hvalue, hpoint, hforward, and_self, if_true]

/-- The spelling of a code point other than a space is read as the units of the code point.  Each
    round of the loop takes one character at least, so a bound above the characters ahead is
    enough. -/
theorem word_spelled {s : Text} (i : Nat) (done : Text) (h : CodePoint.Spelled c s)
    (hspace : c ≠ ' ')
    (hbound : (s ++ rest).length < bound) :
    ∃ bound', rest.length < bound' ∧ word true bound (inline (s ++ rest) i) done =
      word true bound' (inline rest (i + s.length)) (done ++ c.units) := by
  obtain ⟨bound, rfl⟩ : ∃ n, bound = n + 1 := ⟨bound - 1, by omega⟩
  have hunits : ∀ {n}, n < 0x10000 → c.toNat = n → c.units = [CodePoint.ofNat n] := by
    rintro n hn rfl
    rw [CodePoint.units, if_pos hn, CodePoint.ofNat_toNat]
  cases h with
  | plain hinline hquote hbackslash =>
    have hsmall : c.toNat < 0x10000 := Nat.lt_of_le_of_lt hinline.2 (by decide)
    rw [CodePoint.units, if_pos hsmall]
    rw [List.length_append, List.length_singleton] at hbound
    by_cases hapostrophe : c = '\''
    · -- An apostrophe has a round of its own, although it stands for itself here.
      subst hapostrophe
      exact ⟨bound, by omega, word_apostrophe⟩
    · have hordinary : isOrdinary c = true :=
        CodePoint.forall_isInline
          (P := fun c => c ≠ '"' → c ≠ '\\' → c ≠ ' ' → c ≠ '\'' → isOrdinary c = true) (by decide)
          hinline hquote hbackslash hspace hapostrophe
      exact ⟨bound + 1, by omega, word_ordinary hordinary hinline⟩
  | short letter hletter hinline =>
    have hsmall : c.toNat < 0x10000 := by
      have hmem := List.mem_of_find?_eq_some hletter
      exact (by decide : ∀ e ∈ escapes, e.2 < 0x10000) _ hmem
    rw [hunits hsmall rfl]
    simp only [List.length_append, List.length_cons, List.length_nil] at hbound
    exact ⟨bound, by omega, word_escape (escape_letter hletter hinline)⟩
  | unit h =>
    rw [hunits h rfl]
    have hlength := (Text.hex_four h).1
    simp only [List.length_append, hlength] at hbound
    refine ⟨bound, by omega, ?_⟩
    have hspelling : ("\\u" ++ Text.hex 4 c.toNat : Text) ++ rest =
        ('\\' : CodePoint) :: ('u' : CodePoint) :: (Text.hex 4 c.toNat ++ rest) := rfl
    rw [hspelling, word_escape (escape_unit h), List.length_append, hlength]
    rfl
  | pair h =>
    have hlt := c.isLt
    have hhigh : 0xD800 + (c.toNat - 0x10000) / 0x400 < 0x10000 := by omega
    have hlow : 0xDC00 + (c.toNat - 0x10000) % 0x400 < 0x10000 := by omega
    have hunits : c.units = [CodePoint.ofNat (0xD800 + (c.toNat - 0x10000) / 0x400)] ++
        [CodePoint.ofNat (0xDC00 + (c.toNat - 0x10000) % 0x400)] := by
      rw [CodePoint.units, if_neg h]
      rfl
    generalize 0xD800 + (c.toNat - 0x10000) / 0x400 = high at *
    generalize 0xDC00 + (c.toNat - 0x10000) % 0x400 = low at *
    have hlength := (Text.hex_four hhigh).1
    have hlength' := (Text.hex_four hlow).1
    simp only [List.length_append, hlength, hlength'] at hbound
    obtain ⟨bound, rfl⟩ : ∃ n, bound = n + 1 := ⟨bound - 1, by omega⟩
    refine ⟨bound, by omega, ?_⟩
    have hspelling : ("\\u" ++ Text.hex 4 high ++ "\\u" ++ Text.hex 4 low : Text) ++ rest =
        ('\\' : CodePoint) :: ('u' : CodePoint) :: (Text.hex 4 high ++
          (('\\' : CodePoint) :: ('u' : CodePoint) :: (Text.hex 4 low ++ rest))) := by
      simp only [List.append_assoc]
      rfl
    rw [hspelling, word_escape (escape_unit hhigh), word_escape (escape_unit hlow), hunits,
      List.append_assoc]
    simp only [List.length_append, hlength, hlength']
    rfl

/-! ## Words and the spaces between them -/

theorem words_end : words true (bound + 1) (inline (('"' : CodePoint) :: rest) i) done =
    .ok (done, inline rest (i + 1)) := by
  rw [words]
  simp only [peek_inline, if_true, next_inline (c := '"') (by decide)]

/-- The spaces between two words stand for themselves. -/
theorem gap_spaces {k : Nat} (hc : c.IsInline) (hspace : c ≠ ' ') :
    gap (inline (List.replicate k (' ' : CodePoint) ++ c :: rest) i) =
      .ok (List.replicate k (' ' : CodePoint), inline (c :: rest) (i + k)) := by
  have hchar := CodePoint.forall_isInline
    (P := fun c => c ≠ ' ' → isBlank c = false ∧ c ≠ nul ∧ isBreak c = false) (by decide) hc hspace
  have hblanks : ∀ d ∈ List.replicate k (' ' : CodePoint), isBlank d = true := by
    intro d hd
    rw [List.eq_of_mem_replicate hd]
    decide
  have hrun : (inline (List.replicate k (' ' : CodePoint) ++ c :: rest) i).run isBlank =
      List.replicate k (' ' : CodePoint) := by
    show List.takeWhile isBlank (List.replicate k (' ' : CodePoint) ++ c :: rest) = _
    rw [List.takeWhile_append_of_pos hblanks, List.takeWhile_cons_of_neg (by simp [hchar.1]),
      List.append_nil]
  -- Behind the spaces there is neither the end nor a line break, so they are kept.
  have hskip : (inline (List.replicate k (' ' : CodePoint) ++ c :: rest) i).skip isBlank =
      inline (c :: rest) (i + k) := by
    have hinline : ∀ d ∈ List.replicate k (' ' : CodePoint), d.IsInline := by
      intro d hd
      rw [List.eq_of_mem_replicate hd]
      decide
    rw [Cursor.skip, hrun, forward_inline hinline, List.length_replicate]
  unfold gap
  simp only [hrun, hskip, peek_inline, if_neg hchar.2.1, hchar.2.2, Bool.false_eq_true, if_false]
  rfl

/-- Spaces and the word behind them. -/
theorem words_spaces {k : Nat} (hk : 0 < k) (hc : c.IsInline) (hspace : c ≠ ' ') :
    words true (bound + 1) (inline (List.replicate k (' ' : CodePoint) ++ c :: rest) i) done = (do
      let (t, c) ← word true ((c :: rest).length + 1) (inline (c :: rest) (i + k)) []
      words true bound c (done ++ List.replicate k (' ' : CodePoint) ++ t)) := by
  have hpeek : (inline (List.replicate k (' ' : CodePoint) ++ c :: rest) i).peek ≠ '"' := by
    obtain ⟨k, rfl⟩ : ∃ n, k = n + 1 := ⟨k - 1, by omega⟩
    show (' ' : CodePoint) ≠ '"'
    decide
  rw [words]
  simp only [if_true, if_neg hpeek, gap_spaces hc hspace]
  rfl

end Flow

/-! ## Data strings -/

namespace Flow

open Cursor

/-- The content of a data string. -/
abbrev content (t : Text) : Text := t.flatMap (·.inDataString true)

theorem exists_spaces (t : Text) :
    ∃ k u, t = List.replicate k (' ' : CodePoint) ++ u ∧ ∀ c ∈ u.head?, c ≠ ' ' := by
  induction t with
  | nil => exact ⟨0, [], rfl, by simp⟩
  | cons c t ih =>
    by_cases hc : c = ' '
    · obtain ⟨k, u, rfl, hu⟩ := ih
      exact ⟨k + 1, u, by rw [hc, List.replicate_succ, List.cons_append], hu⟩
    · exact ⟨0, c :: t, rfl, by simpa using hc⟩

theorem content_spaces (k : Nat) :
    content (List.replicate k (' ' : CodePoint)) = List.replicate k (' ' : CodePoint) ∧
      Text.units (List.replicate k (' ' : CodePoint)) = List.replicate k (' ' : CodePoint) := by
  induction k with
  | zero => exact ⟨rfl, rfl⟩
  | succ k ih =>
    rw [List.replicate_succ]
    exact ⟨congrArg (List.cons (' ' : CodePoint)) ih.1, congrArg (List.cons (' ' : CodePoint)) ih.2⟩

/-- A text that starts with a space is some spaces and something else behind them. -/
theorem exists_content_spaces (t : Text) :
    ∃ (k : Nat) (u : Text), 0 < k ∧ u.length < ((' ' : CodePoint) :: t).length ∧
      (∀ c ∈ u.head?, c ≠ ' ') ∧
      content ((' ' : CodePoint) :: t) = List.replicate k (' ' : CodePoint) ++ content u ∧
      Text.units ((' ' : CodePoint) :: t) = List.replicate k (' ' : CodePoint) ++ u.units := by
  obtain ⟨k, u, rfl, hu⟩ := exists_spaces t
  obtain ⟨hspaces, hunits⟩ := content_spaces (k + 1)
  refine ⟨k + 1, u, Nat.succ_pos k, ?_, hu, ?_, ?_⟩
  · rw [List.length_cons, List.length_append, List.length_replicate]
    omega
  · rw [← List.cons_append, ← List.replicate_succ, content, List.flatMap_append]
    exact congrArg (· ++ content u) hspaces
  · rw [← List.cons_append, ← List.replicate_succ, Text.units, List.flatMap_append]
    exact congrArg (· ++ u.units) hunits

/-- What stands behind spaces in a data string is no space. -/
theorem exists_content_cons {u : Text} (rest : Text) (hu : ∀ c ∈ u.head?, c ≠ ' ') :
    ∃ c t, content u ++ ('"' : CodePoint) :: rest = c :: t ∧ c.IsInline ∧ c ≠ ' ' := by
  cases u with
  | nil => exact ⟨'"', rest, rfl, by decide, by decide⟩
  | cons d u =>
    have hspelled := CodePoint.spelled_inDataString d
    obtain ⟨c, t, ht, hc⟩ := hspelled.exists_cons (hu d rfl)
    refine ⟨c, t ++ (content u ++ ('"' : CodePoint) :: rest), ?_, ?_, hc⟩
    · rw [content, List.flatMap_cons, ht, List.append_assoc]
      rfl
    · exact hspelled.isInline c (ht ▸ List.mem_cons_self)

/-- A bound that is enough for whatever is left of a text. -/
def Suffices (text : Text) (bound : Cursor → Nat) : Prop :=
  ∀ c : Cursor, c.rest.length ≤ text.length → c.rest.length < bound c

theorem Suffices.exists_succ {text : Text} {bound : Cursor → Nat} (h : Suffices text bound)
    (i : Nat) : ∃ n, bound (inline text i) = n + 1 ∧ text.length ≤ n := by
  have hlt : text.length < bound (inline text i) := h (inline text i) (Nat.le_refl _)
  obtain ⟨n, hn⟩ := Nat.exists_eq_succ_of_ne_zero (Nat.ne_zero_of_lt hlt)
  exact ⟨n, hn, by omega⟩

theorem Suffices.behind {front text : Text} {bound : Cursor → Nat}
    (h : Suffices (front ++ text) bound) : Suffices text bound := by
  intro c hc
  refine h c (Nat.le_trans hc ?_)
  rw [List.length_append]
  exact Nat.le_add_left _ _

/-- From a word on, the rest of a data string is read as its units.  The induction is on what is
    left of the text: a word goes on character by character, and spaces end it. -/
theorem word_content (t rest done pre : Text) (i : Nat) {bound : Nat} (bound' : Cursor → Nat)
    (hbound : (content t ++ ('"' : CodePoint) :: rest).length < bound)
    (hbound' : Suffices (content t ++ ('"' : CodePoint) :: rest) bound') :
    (do
      let (u, c) ← word true bound (inline (content t ++ ('"' : CodePoint) :: rest) i) done
      words true (bound' c) c (pre ++ u)) =
      .ok (pre ++ (done ++ t.units), inline rest (i + (content t).length + 1)) := by
  induction h : t.length using Nat.strongRecOn generalizing t done pre i bound bound' with
  | ind n ih =>
    subst h
    cases t with
    | nil =>
      obtain ⟨bound, rfl⟩ := Nat.exists_eq_succ_of_ne_zero (Nat.ne_zero_of_lt hbound)
      obtain ⟨n, hn, -⟩ := hbound'.exists_succ i
      have hstop : word true (bound + 1) (inline (('"' : CodePoint) :: rest) i) done =
          .ok (done, inline (('"' : CodePoint) :: rest) i) := word_stop (Or.inr rfl)
      have hend : words true (bound' (inline (('"' : CodePoint) :: rest) i))
          (inline (('"' : CodePoint) :: rest) i) (pre ++ done) =
            .ok (pre ++ done, inline rest (i + 1)) := by
        rw [show bound' (inline (('"' : CodePoint) :: rest) i) = n + 1 from hn, words_end]
      show (word true (bound + 1) (inline (('"' : CodePoint) :: rest) i) done >>= _) = _
      rw [hstop, show Text.units [] = [] from rfl, List.append_nil]
      exact hend
    | cons c t =>
      by_cases hc : c = ' '
      · subst hc
        obtain ⟨k, u, hk, hlength, hu, hcontent, hunits⟩ := exists_content_spaces t
        obtain ⟨d, v, hv, hd, hspace⟩ := exists_content_cons rest hu
        rw [hcontent, List.append_assoc, hv] at hbound hbound' ⊢
        obtain ⟨bound, rfl⟩ := Nat.exists_eq_succ_of_ne_zero (Nat.ne_zero_of_lt hbound)
        obtain ⟨n, hn, hle⟩ := hbound'.exists_succ i
        have hstop : word true (bound + 1)
            (inline (List.replicate k (' ' : CodePoint) ++ d :: v) i) done =
            .ok (done, inline (List.replicate k (' ' : CodePoint) ++ d :: v) i) := by
          obtain ⟨k, rfl⟩ := Nat.exists_eq_succ_of_ne_zero (Nat.ne_of_gt hk)
          exact word_stop (Or.inl rfl)
        -- The spaces have been taken, which pays for the round.
        have hleft : (d :: v).length < n := by
          rw [List.length_append, List.length_replicate] at hle
          omega
        have hrec := ih u.length hlength u [] (pre ++ done ++ List.replicate k (' ' : CodePoint))
          (i + k) (fun _ => n) (Nat.lt_succ_self _)
          (by rw [hv]; exact fun c hc => Nat.lt_of_le_of_lt hc hleft) rfl
        rw [hv] at hrec
        rw [hstop]
        show words true (bound' _) _ (pre ++ done) = _
        rw [hn, words_spaces hk hd hspace, hrec, hunits]
        simp only [List.append_assoc, List.nil_append, List.length_append, List.length_replicate,
          Nat.add_assoc]
      · have hcontent : content (c :: t) = c.inDataString true ++ content t := rfl
        have hunits : Text.units (c :: t) = c.units ++ Text.units t := rfl
        rw [hcontent, List.append_assoc] at hbound hbound' ⊢
        obtain ⟨bound, hbound, hword⟩ :=
          word_spelled i done (CodePoint.spelled_inDataString c) hc hbound
        have hrec := ih t.length (Nat.lt_succ_self _) t (done ++ c.units) pre
          (i + (c.inDataString true).length) bound' hbound hbound'.behind rfl
        rw [hword, hrec, hunits]
        simp only [List.append_assoc, List.length_append, Nat.add_assoc]

theorem dataString_append (t rest : Text) : t.dataString true ++ rest =
    ('"' : CodePoint) :: (content t ++ ('"' : CodePoint) :: rest) := by
  rw [Text.dataString, List.append_assoc, List.append_assoc]
  rfl

theorem length_dataString (t : Text) : (t.dataString true).length = (content t).length + 2 := by
  have h := congrArg List.length (dataString_append t [])
  rw [List.append_nil] at h
  rw [h, List.length_cons, List.length_append, List.length_singleton]

/-- A data string is read as the units of its text. -/
theorem scan_dataString (t rest : Text) (i : Nat) :
    scan true (inline (t.dataString true ++ rest) i) =
      .ok (t.units, inline rest (i + (t.dataString true).length)) := by
  have hcontent := word_content t rest [] [] (i + 1) (fun c => c.rest.length + 1)
    (Nat.lt_succ_self _) fun _ _ => Nat.lt_succ_self _
  have hlength : i + 1 + (content t).length + 1 = i + (t.dataString true).length := by
    rw [length_dataString]
    omega
  rw [hlength] at hcontent
  rw [dataString_append]
  unfold scan
  simp only [next_inline (c := '"') (by decide)]
  exact hcontent

end Flow

end Yaml

end IdlBridge
