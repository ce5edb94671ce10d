import IdlBridge.Proofs.Idl.Lexing
import Mathlib.Data.List.TakeWhile

/-! # What a text is cut into

    `Cut t ls` says that the lexemes `ls` make up the text `t`, with one rule for every kind of
    lexeme.  The rules keep what later arguments about line feeds need: which lexemes have none, how
    the marks of a block comment lie in it, and that only a comment that ends the text is not
    closed.  The tokenizer cuts every text by these rules.
-/

namespace IdlBridge.Idl

variable {κ : Type}

/-- What a text is cut into.  Of the comments only the one that is not closed ends the text for
    sure, and of the tokens only strings can have line feeds in them. -/
inductive Cut : Text → List (Lexeme κ) → Prop
  | nil : Cut [] []
  | gap (c : CodePoint) {t : Text} {ls : List (Lexeme κ)} (h : Cut t ls) :
    Cut (c :: t) (⟨[c], .gap⟩ :: ls)
  | lineComment {raw t : Text} {ls : List (Lexeme κ)} (hraw : ('\n' : CodePoint) ∉ raw)
    (h : Cut t ls) : Cut (raw ++ t) (⟨raw, .lineComment⟩ :: ls)
  | comment (body : Text) {t : Text} {ls : List (Lexeme κ)} (h : Cut t ls) :
    Cut ("/*" ++ (body ++ "*/") ++ t) (⟨"/*" ++ (body ++ "*/"), .blockComment body⟩ :: ls)
  | openComment (body : Text) : Cut ("/*" ++ body) [⟨"/*" ++ body, .blockComment body⟩]
  | literal {quote : CodePoint} (hquote : Lexicon.IsQuote quote) (w value : Text) {t : Text}
    {ls : List (Lexeme κ)} (h : Cut t ls) :
    Cut (quote :: w ++ t) (⟨quote :: w, .token .string value⟩ :: ls)
  | token {raw t : Text} {kind : Kind κ} {ls : List (Lexeme κ)} (hkind : kind ≠ .string)
    (hraw : ('\n' : CodePoint) ∉ raw) (h : Cut t ls) :
    Cut (raw ++ t) (⟨raw, .token kind raw⟩ :: ls)

namespace Lexicon

variable {lx : Lexicon}

/-- The body of a block comment ends in front of the closing mark, or with the text. -/
theorem blockBody_cases (t : Text) :
    (∃ tail, t = blockBody t ++ ("*/" ++ tail)) ∨ blockBody t = t := by
  induction t using blockBody.induct with
  | case1 a b rest h =>
    left
    obtain ⟨rfl, rfl⟩ := h
    exact ⟨rest, by rw [blockBody, if_pos ⟨rfl, rfl⟩]; rfl⟩
  | case2 a b rest h ih =>
    rw [blockBody, if_neg h]
    rcases ih with ⟨tail, htail⟩ | hopen
    · left
      exact ⟨tail, by rw [List.cons_append, ← htail]⟩
    · right
      rw [hopen]
  | case3 t h =>
    right
    -- Less than two characters hold no closing mark.
    cases t with
    | nil => rfl
    | cons a t =>
      cases t with
      | nil => rfl
      | cons b t => exact absurd rfl (h a b t)

theorem numberTail_cases (previous : CodePoint) (t : Text) :
    ∃ tail, t = numberTail previous t ++ tail ∧ ('\n' : CodePoint) ∉ numberTail previous t := by
  have hfeed : (('\n' : CodePoint).isAlnum || ('\n' : CodePoint) = '.') = false ∧
    isSign '\n' = false := by decide
  induction t generalizing previous with
  | nil => exact ⟨[], rfl, List.not_mem_nil⟩
  | cons c t ih =>
    rw [numberTail]
    split
    · next hc =>
      obtain ⟨tail, htail, hmem⟩ := ih c
      have hne : ('\n' : CodePoint) ≠ c := by
        rintro rfl
        rw [hfeed.1, hfeed.2] at hc
        cases hc
      refine ⟨tail, by rw [List.cons_append, ← htail], fun h => ?_⟩
      exact hmem ((List.mem_cons.1 h).resolve_left hne)
    · exact ⟨c :: t, rfl, List.not_mem_nil⟩

variable [Keyword κ]

/-- A text is cut by cutting a lexeme off its front. -/
theorem cut_of_lexeme {c : CodePoint} {rest w tail : Text} {role : Role κ}
    (hrest : rest = w ++ tail) (hl : (lx.lexeme c rest : Lexeme κ) = ⟨c :: w, role⟩)
    (h : Cut (c :: w ++ tail) (⟨c :: w, role⟩ :: (lx.lexemes tail : List (Lexeme κ)))) :
    Cut (c :: rest) (lx.lexemes (c :: rest) : List (Lexeme κ)) := by
  subst hrest
  rw [lexemes_cons_append hl]
  exact h

theorem ne_feed_of_lineMark {c : CodePoint} {rest : Text}
    (h : ((lx.hashComments && c = '#') || (c = '/' && rest.head? = some ('/' : CodePoint)))
      = true) :
    ('\n' : CodePoint) ≠ c := by
  rintro rfl
  have hmarks : ('\n' : CodePoint) ≠ '#' ∧ ('\n' : CodePoint) ≠ '/' := by decide
  simp [hmarks] at h

theorem ne_feed_of_startsNumber {c : CodePoint} {rest : Text} (h : lx.startsNumber c rest = true) :
    ('\n' : CodePoint) ≠ c := by
  rintro rfl
  rw [startsNumber_eq_false (by decide) (by decide)] at h
  cases h

theorem ne_feed_of_startsName {c : CodePoint} {rest : Text} (h : lx.startsName c rest = true) :
    ('\n' : CodePoint) ≠ c := by
  rintro rfl
  rw [startsName_eq_false (by decide) (by decide)] at h
  cases h

theorem ne_feed_of_delimiter {c : CodePoint} {d : Delimiter}
    (h : Delimiter.ofCodePoint? c = some d) :
    ('\n' : CodePoint) ≠ c := by
  rintro rfl
  cases h

theorem feed_not_mem_cons {c : CodePoint} {w : Text} (hc : ('\n' : CodePoint) ≠ c)
    (hw : ('\n' : CodePoint) ∉ w) : ('\n' : CodePoint) ∉ c :: w :=
  fun h => (List.mem_cons.1 h).elim hc hw

theorem wordKind_ne_string (w : Text) : (wordKind w : Kind κ) ≠ .string := by
  unfold wordKind
  split <;> exact fun h => by cases h

theorem lexeme_comment (rest : Text) :
    (lx.lexeme '/' ('*' :: rest) : Lexeme κ) =
      ⟨"/*" ++ rest.take ((blockBody rest).length + 2), .blockComment (blockBody rest)⟩ := by
  have hmarks : ('/' : CodePoint) ≠ '#' ∧ ('*' : CodePoint) ≠ '/' := by decide
  have htake : 1 + (blockBody rest).length + 2 = (blockBody rest).length + 2 + 1 := by omega
  rw [lexeme]
  simp [hmarks, htake]
  rfl

theorem cut_lexemes_comment {rest : Text}
    (ih : ∀ tail : Text, tail.length ≤ rest.length → Cut tail (lx.lexemes tail : List (Lexeme κ))) :
    Cut ("/*" ++ rest) (lx.lexemes ("/*" ++ rest) : List (Lexeme κ)) := by
  have hl : (lx.lexeme '/' ('*' :: rest) : Lexeme κ) = _ := lexeme_comment rest
  obtain ⟨body, hbody⟩ : ∃ body, blockBody rest = body := ⟨_, rfl⟩
  rcases blockBody_cases rest with ⟨tail, hrest⟩ | hopen
  · rw [hbody] at hl hrest
    subst hrest
    -- The lexeme ends behind the closing mark, which is two characters long.
    have htake : (body ++ ("*/" ++ tail)).take (body.length + 2) = body ++ "*/" := by
      rw [← List.append_assoc]
      exact List.take_left' List.length_append
    have htail : tail.length ≤ (body ++ ("*/" ++ tail)).length := by
      rw [List.length_append, List.length_append]
      omega
    rw [htake] at hl
    have hrest : ('*' : CodePoint) :: (body ++ (("*/" : Text) ++ tail)) =
        ('*' : CodePoint) :: (body ++ ("*/" : Text)) ++ tail := by
      rw [List.cons_append, List.append_assoc]
    exact cut_of_lexeme hrest hl (.comment body (ih tail htail))
  · rw [hopen, List.take_of_length_le (by omega)] at hl
    exact cut_of_lexeme (w := '*' :: rest) (List.append_nil _).symm hl
      (by rw [List.append_nil]; exact .openComment rest)

theorem cut_lexemes_cons {c : CodePoint} {rest : Text}
    (ih : ∀ tail : Text, tail.length ≤ rest.length → Cut tail (lx.lexemes tail : List (Lexeme κ))) :
    Cut (c :: rest) (lx.lexemes (c :: rest) : List (Lexeme κ)) := by
  have hl : (lx.lexeme c rest : Lexeme κ) = lx.lexeme c rest := rfl
  conv_rhs at hl => unfold lexeme
  -- Each rule takes a front part of the rest, and the induction goes on with what is behind it.
  have hspan : ∀ p : CodePoint → Bool, rest = rest.takeWhile p ++ rest.dropWhile p :=
    fun p => List.takeWhile_append_dropWhile.symm
  have hbehind : ∀ p : CodePoint → Bool, (rest.dropWhile p).length ≤ rest.length :=
    fun p => (List.dropWhile_suffix p).length_le
  split at hl
  · next hc =>
    have hfeed : ('\n' : CodePoint) ∉ rest.takeWhile (· != ('\n' : CodePoint)) := fun h => by
      simpa using List.mem_takeWhile_imp h
    have hraw := feed_not_mem_cons (ne_feed_of_lineMark hc) hfeed
    exact cut_of_lexeme (hspan _) hl (.lineComment hraw (ih _ (hbehind _)))
  split at hl
  · next hc =>
    rw [Bool.and_eq_true, decide_eq_true_eq, decide_eq_true_eq] at hc
    obtain ⟨rfl, hhead⟩ := hc
    obtain ⟨r, rfl⟩ := List.head?_eq_some_iff.1 hhead
    exact cut_lexemes_comment fun tail htail => ih tail (Nat.le_succ_of_le htail)
  split at hl
  · next d hd =>
    have hraw := feed_not_mem_cons (ne_feed_of_delimiter hd) List.not_mem_nil
    exact cut_of_lexeme (w := []) rfl hl (.token (fun h => by cases h) hraw (ih rest le_rfl))
  split at hl
  · next hquote =>
    have hrest := (List.take_append_drop (lx.literal c rest).2 rest).symm
    exact cut_of_lexeme hrest hl (.literal hquote _ _ (ih _ (List.drop_suffix _ _).length_le))
  split at hl
  · next hnumber =>
    obtain ⟨tail, hrest, hfeed⟩ := numberTail_cases c rest
    have hraw := feed_not_mem_cons (ne_feed_of_startsNumber hnumber) hfeed
    have htail : tail.length ≤ rest.length := by
      rw [hrest, List.length_append]
      omega
    exact cut_of_lexeme hrest hl (.token (fun h => by cases h) hraw (ih tail htail))
  split at hl
  · next hname =>
    have hfeed : ('\n' : CodePoint) ∉ rest.takeWhile isNamePart := fun h =>
      absurd (List.mem_takeWhile_imp h) (by decide)
    have hraw := feed_not_mem_cons (ne_feed_of_startsName hname) hfeed
    exact cut_of_lexeme (hspan _) hl (.token (wordKind_ne_string _) hraw (ih _ (hbehind _)))
  · exact cut_of_lexeme (w := []) rfl hl (.gap c (ih rest le_rfl))

theorem cut_lexemes (t : Text) : Cut t (lx.lexemes t : List (Lexeme κ)) := by
  induction hn : t.length using Nat.strong_induction_on generalizing t with
  | _ n ih =>
    cases t with
    | nil => exact .nil
    | cons c rest =>
      apply cut_lexemes_cons
      intro tail htail
      rw [List.length_cons] at hn
      exact ih tail.length (by omega) tail rfl

end Lexicon

/-- The lexemes of a text lie next to each other and make up the whole text. -/
theorem Cut.flatMap_raw {t : Text} {ls : List (Lexeme κ)} (h : Cut t ls) :
    ls.flatMap (·.raw) = t := by
  induction h with
  | nil => rfl
  | openComment body => simp
  | gap c _ ih => rw [List.flatMap_cons, ih]; rfl
  | lineComment _ _ ih | comment _ _ ih | literal _ _ _ _ ih | token _ _ _ ih =>
    rw [List.flatMap_cons, ih]

end IdlBridge.Idl
