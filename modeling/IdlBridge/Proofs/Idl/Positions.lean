import IdlBridge.Proofs.Idl.Cutting
import IdlBridge.Proofs.Proto.Progress
import IdlBridge.Proofs.Thrift.Progress

/-! # Where tokens stand

    A token stands behind the part of the text in front of it: its line is one more than the line
    feeds of that part, its column one more than the characters behind the last of them.  The
    tokenizer does not look back, it carries a position from lexeme to lexeme.

    What it carries is wrong behind three kinds of lexemes only: a block comment that is closed on
    its line, a block comment that is not closed and has several lines, and, in a language that does
    not count lines inside of literals, a literal of several lines.  The first of them shifts the
    columns of one line.  It does no harm if a line feed comes before the next token.  The other two
    reach the end of the text, where the last token stands.
-/

namespace IdlBridge.Idl

variable {κ : Type}

namespace Position

/-- The place behind a text. -/
def behind (t : Text) : Position :=
  ⟨1 + t.count ('\n' : CodePoint), 1 + (Text.afterLast '\n' t).length⟩

/-! ## Walking -/

theorem behind_concat (t : Text) (c : CodePoint) : behind (t ++ [c]) = (behind t).step c := by
  unfold behind step Text.afterLast
  by_cases hc : c = '\n'
  · simp [hc, Nat.add_assoc]
  · simp [hc]
    omega

theorem behind_append (s t : Text) : behind (s ++ t) = (behind s).walk t := by
  induction t generalizing s with
  | nil =>
    rw [List.append_nil]
    rfl
  | cons c t ih =>
    have hstep : (behind s).walk (c :: t) = ((behind s).step c).walk t := rfl
    rw [List.append_cons, ih, behind_concat, hstep]

variable {p q : Position} {t : Text}

theorem walk_append (p : Position) (s t : Text) : p.walk (s ++ t) = (p.walk s).walk t :=
  List.foldl_append

theorem walk_of_not_mem (h : ('\n' : CodePoint) ∉ t) : p.walk t = p.along t.length := by
  induction t generalizing p with
  | nil => rfl
  | cons c t ih =>
    obtain ⟨hc, ht⟩ := List.ne_and_not_mem_of_not_mem_cons h
    show (p.step c).walk t = _
    rw [ih ht, step, if_neg hc.symm, along, along, List.length_cons]
    simp only [mk.injEq, true_and]
    omega

/-- A line feed makes columns forget what was in front of it. -/
theorem walk_eq_of_mem (h : ('\n' : CodePoint) ∈ t) (hline : p.line = q.line) :
    p.walk t = q.walk t := by
  induction t generalizing p q with
  | nil => cases h
  | cons c t ih =>
    show (p.step c).walk t = (q.step c).walk t
    by_cases hc : c = '\n'
    · rw [step, step, if_pos hc, if_pos hc, hline]
    · have ht : ('\n' : CodePoint) ∈ t := (List.mem_cons.1 h).resolve_left (Ne.symm hc)
      apply ih ht
      rw [step, step, if_neg hc, if_neg hc]
      exact hline

theorem line_walk (p : Position) (t : Text) :
    (p.walk t).line = p.line + t.count ('\n' : CodePoint) := by
  induction t generalizing p with
  | nil => rfl
  | cons c t ih =>
    show ((p.step c).walk t).line = _
    rw [ih, step, List.count_cons]
    by_cases hc : c = '\n'
    · simp [hc]
      omega
    · simp [hc]

theorem eq_iff_of_line (hline : p.line = q.line) : p = q ↔ p.col = q.col := by
  rw [mk.injEq]
  exact and_iff_right hline

theorem col_walk_eq_iff (hline : p.line = q.line) :
    (p.walk t).col = (q.walk t).col ↔ p.col = q.col ∨ ('\n' : CodePoint) ∈ t := by
  by_cases ht : ('\n' : CodePoint) ∈ t
  · simp [walk_eq_of_mem ht hline, ht]
  · simp [walk_of_not_mem ht, along, ht]

theorem col_walk_le (hline : p.line = q.line) (hcol : p.col ≤ q.col) :
    (p.walk t).col ≤ (q.walk t).col := by
  by_cases ht : ('\n' : CodePoint) ∈ t
  · rw [walk_eq_of_mem ht hline]
  · rw [walk_of_not_mem ht, walk_of_not_mem ht]
    exact Nat.add_le_add_right hcol _

end Position

/-! ## Where tokens are, and where they are said to be -/

/-- A token of a text, how it is spelled there, and the part of the text in front of it. -/
structure Site (κ : Type) where
  kind : Kind κ
  value : Text
  raw : Text
  before : Text

/-- The place of the first character of a token. -/
def Site.pos (s : Site κ) : Position := .behind s.before

/-- The token stands in the text.  A string starts with its quote, any other token is spelled as its
    value. -/
structure Site.In (t : Text) (s : Site κ) : Prop where
  stands : s.before ++ s.raw <+: t
  spelled : s.kind ≠ .string → s.raw = s.value
  quoted : s.kind = .string → ∃ quote ∈ s.raw.head?, Lexicon.IsQuote quote

/-- The kind, the value and the place of a token. -/
def Token.mark (t : Token κ) : Kind κ × Text × Position :=
  (t.kind, t.value, t.pos)

/-- The kind, the value and the true place of a token. -/
def Site.mark (s : Site κ) : Kind κ × Text × Position :=
  (s.kind, s.value, s.pos)

namespace Lexicon

variable {lx : Lexicon}

/-- The tokens of lexemes that stand behind the text `before`, the end of the source included. -/
def sitesFrom (before : Text) : List (Lexeme κ) → List (Site κ)
  | [] => [⟨.eof, [], [], before⟩]
  | l :: rest =>
    match l.role with
    | .token kind value => ⟨kind, value, l.raw, before⟩ :: sitesFrom (before ++ l.raw) rest
    | _ => sitesFrom (before ++ l.raw) rest

/-- The tokens of a text. -/
def sites [Keyword κ] (lx : Lexicon) (t : Text) : List (Site κ) :=
  sitesFrom [] (lx.lexemes t)

/-- The tokens stand in the text that the lexemes make up behind `before`. -/
theorem in_of_mem_sitesFrom {t : Text} {ls : List (Lexeme κ)} (h : Cut t ls) (before : Text) :
    ∀ s ∈ sitesFrom before ls, s.In (before ++ t) := by
  -- What is behind a lexeme is found in the whole text, and so is the lexeme.
  have hrest : ∀ {before raw t : Text} {ls : List (Lexeme κ)},
      (∀ s ∈ sitesFrom (before ++ raw) ls, s.In (before ++ raw ++ t)) →
        ∀ s ∈ sitesFrom (before ++ raw) ls, s.In (before ++ (raw ++ t)) := by
    intro before raw t ls hs
    rwa [List.append_assoc] at hs
  have hstands : ∀ before raw t : Text, before ++ raw <+: before ++ (raw ++ t) :=
    fun before raw t =>
    ⟨t, List.append_assoc before raw t⟩
  induction h generalizing before with
  | nil =>
    intro s hs
    obtain rfl := List.mem_singleton.1 hs
    exact ⟨List.prefix_rfl, fun _ => rfl, fun h => by cases h⟩
  | gap c _ ih => exact hrest (ih _)
  | lineComment _ _ ih => exact hrest (ih _)
  | comment body _ ih => exact hrest (ih _)
  | openComment body =>
    intro s hs
    obtain rfl := List.mem_singleton.1 hs
    exact ⟨by simp, fun _ => rfl, fun h => by cases h⟩
  | literal hquote w value _ ih =>
    apply List.forall_mem_cons.2 ⟨?_, hrest (ih _)⟩
    exact ⟨hstands _ _ _, fun h => absurd rfl h, fun _ => ⟨_, rfl, hquote⟩⟩
  | token hkind _ _ ih =>
    apply List.forall_mem_cons.2 ⟨?_, hrest (ih _)⟩
    exact ⟨hstands _ _ _, fun _ => rfl, fun h => absurd h hkind⟩

theorem getLast?_sitesFrom (before : Text) (ls : List (Lexeme κ)) :
    (sitesFrom before ls).getLast? = some ⟨.eof, [], [], before ++ ls.flatMap (·.raw)⟩ := by
  induction ls generalizing before with
  | nil => simp [sitesFrom]
  | cons l rest ih =>
    have hrest := ih (before ++ l.raw)
    rw [List.append_assoc] at hrest
    rw [sitesFrom, List.flatMap_cons]
    cases hrole : l.role with
    | token kind value => simp only [List.getLast?_cons, hrest, Option.getD_some]
    | _ => exact hrest

/-- The tokens of lexemes with places that a position gives, which `next` takes over a lexeme. -/
def marksFrom (next : Position → Lexeme κ → Position) (p : Position) :
    List (Lexeme κ) → List (Kind κ × Text × Position)
  | [] => [(.eof, [], p)]
  | l :: rest =>
    match l.role with
    | .token kind value => (kind, value, p) :: marksFrom next (next p l) rest
    | _ => marksFrom next (next p l) rest

/-- The tokenizer carries the place along. -/
theorem map_mark_place (last : Option (Token κ)) (waiting : List Text) (p : Position)
    (ls : List (Lexeme κ)) :
    (lx.place last waiting p ls).map Token.mark =
      last.toList.map Token.mark ++ marksFrom lx.after p ls := by
  induction ls generalizing last waiting p with
  | nil => simp [place, marksFrom, Token.mark]
  | cons l rest ih =>
    rw [place.eq_def, marksFrom]
    cases hrole : l.role with
    | gap =>
      simp only [hrole]
      exact ih last waiting _
    | token kind value =>
      simp only [hrole, List.map_append, ih]
      rfl
    | lineComment | blockComment body =>
      -- The comment is handed to a token, which stays where it is.
      simp only [hrole]
      cases last with
      | none => exact ih none _ _
      | some t =>
        dsimp only
        split
        · exact ih _ _ _
        · exact ih _ _ _

/-- The true places are found by walking over every lexeme. -/
theorem map_mark_sitesFrom (before : Text) (ls : List (Lexeme κ)) :
    (sitesFrom before ls).map Site.mark =
      marksFrom (fun p l => p.walk l.raw) (.behind before) ls := by
  induction ls generalizing before with
  | nil => rfl
  | cons l rest ih =>
    have hrest := ih (before ++ l.raw)
    rw [Position.behind_append] at hrest
    rw [sitesFrom, marksFrom]
    cases hrole : l.role with
    | token kind value =>
      simp only [List.map_cons, hrest]
      rfl
    | _ => exact hrest

/-- What a token is does not depend on its place. -/
theorem map_marksFrom (next next' : Position → Lexeme κ → Position) (p q : Position)
    (ls : List (Lexeme κ)) :
    (marksFrom next p ls).map (fun m => (m.1, m.2.1)) =
      (marksFrom next' q ls).map (fun m => (m.1, m.2.1)) := by
  induction ls generalizing p q with
  | nil => rfl
  | cons l rest ih =>
    have hrest := ih (next p l) (next' q l)
    rw [marksFrom, marksFrom]
    cases hrole : l.role with
    | token kind value => simp only [List.map_cons, hrest]
    | _ => exact hrest

end Lexicon

/-! ## Lexemes that are measured wrongly -/

namespace Lexeme

/-- A token, not a gap or a comment. -/
def isToken (l : Lexeme κ) : Bool :=
  match l.role with
  | .token _ _ => true
  | _ => false

/-- A block comment that is closed on the line where it starts. -/
def isInline (l : Lexeme κ) : Bool :=
  match l.role with
  | .blockComment body => l.raw = "/*" ++ (body ++ "*/") && !l.raw.contains '\n'
  | _ => false

/-- A block comment of several lines that is not closed. -/
def isRunaway (l : Lexeme κ) : Bool :=
  match l.role with
  | .blockComment body => l.raw = "/*" ++ body && l.raw.contains '\n'
  | _ => false

/-- A string literal of several lines. -/
def isSpread (l : Lexeme κ) : Bool :=
  match l.role with
  | .token .string _ => l.raw.contains '\n'
  | _ => false

theorem isInline_comment (body : Text) :
    (⟨"/*" ++ (body ++ "*/"), .blockComment body⟩ : Lexeme κ).isInline = true ↔
      ('\n' : CodePoint) ∉ body := by
  have hmarks : ('\n' : CodePoint) ∉ ("/*" : Text) ∧ ('\n' : CodePoint) ∉ ("*/" : Text) := by decide
  simp [isInline, hmarks]

theorem isRunaway_comment (body : Text) :
    (⟨"/*" ++ (body ++ "*/"), .blockComment body⟩ : Lexeme κ).isRunaway = false := by
  have hclosed : ("*/" : Text) ≠ [] := by decide
  simp [isRunaway, hclosed]

theorem isInline_openComment (body : Text) :
    (⟨"/*" ++ body, .blockComment body⟩ : Lexeme κ).isInline = false := by
  have hclosed : ("*/" : Text) ≠ [] := by decide
  simp [isInline, hclosed]

theorem isRunaway_openComment (body : Text) :
    (⟨"/*" ++ body, .blockComment body⟩ : Lexeme κ).isRunaway = true ↔
      ('\n' : CodePoint) ∈ body := by
  have hmark : ('\n' : CodePoint) ∉ ("/*" : Text) := by decide
  simp [isRunaway, hmark]

end Lexeme

/-- A line feed comes before the next token. -/
def FeedAhead (ls : List (Lexeme κ)) : Prop :=
  ∃ l ∈ ls.takeWhile (!·.isToken), ('\n' : CodePoint) ∈ l.raw

/-- All lexemes are measured rightly, or it does no harm that they are not. -/
structure Measured (lx : Lexicon) (ls : List (Lexeme κ)) : Prop where
  counted : lx.linesInLiterals = false → ∀ l ∈ ls, l.isSpread = false
  closed : ∀ l ∈ ls, l.isRunaway = false
  ended : ∀ l rest, l :: rest <:+ ls → l.isInline = true → FeedAhead rest

instance (ls : List (Lexeme κ)) : Decidable (FeedAhead ls) :=
  inferInstanceAs (Decidable (∃ l ∈ ls.takeWhile (!·.isToken), ('\n' : CodePoint) ∈ l.raw))

theorem not_feedAhead_nil : ¬FeedAhead ([] : List (Lexeme κ)) := by
  rintro ⟨l, hl, _⟩
  cases hl

theorem feedAhead_cons {l : Lexeme κ} {ls : List (Lexeme κ)} :
    FeedAhead (l :: ls) ↔ l.isToken = false ∧ (('\n' : CodePoint) ∈ l.raw ∨ FeedAhead ls) := by
  unfold FeedAhead
  cases hl : l.isToken with
  | false => simp [hl]
  | true => simp [hl]

variable {lx : Lexicon}

theorem measured_nil : Measured lx ([] : List (Lexeme κ)) where
  counted _ l hl := by cases hl
  closed l hl := by cases hl
  ended l rest h := by simp at h

theorem measured_cons {l : Lexeme κ} {ls : List (Lexeme κ)} :
    Measured lx (l :: ls) ↔
      ((lx.linesInLiterals = false → l.isSpread = false) ∧ l.isRunaway = false ∧
        (l.isInline = true → FeedAhead ls)) ∧ Measured lx ls := by
  constructor
  · intro h
    refine ⟨⟨fun hlines => h.counted hlines l List.mem_cons_self, h.closed l List.mem_cons_self,
      h.ended l ls List.suffix_rfl⟩, ?_⟩
    exact ⟨fun hlines m hm => h.counted hlines m (List.mem_cons_of_mem _ hm),
      fun m hm => h.closed m (List.mem_cons_of_mem _ hm),
      fun m rest hm => h.ended m rest (hm.trans (List.suffix_cons l ls))⟩
  · rintro ⟨⟨hcounted, hclosed, hended⟩, h⟩
    refine ⟨fun hlines => List.forall_mem_cons.2 ⟨hcounted hlines, h.counted hlines⟩,
      List.forall_mem_cons.2 ⟨hclosed, h.closed⟩, fun m rest hm => ?_⟩
    rcases List.suffix_cons_iff.1 hm with heq | hm
    · cases heq
      exact hended
    · exact h.ended m rest hm

theorem measured_cons_of_counted {l : Lexeme κ} {ls : List (Lexeme κ)}
    (hspread : lx.linesInLiterals = false → l.isSpread = false) (hrunaway : l.isRunaway = false)
    (hinline : l.isInline = false) : Measured lx (l :: ls) ↔ Measured lx ls := by
  rw [measured_cons, hinline]
  exact and_iff_right ⟨hspread, hrunaway, fun h => by cases h⟩

instance decidableMeasured : (ls : List (Lexeme κ)) → Decidable (Measured lx ls)
  | [] => .isTrue measured_nil
  | _ :: ls =>
    have := decidableMeasured ls
    decidable_of_iff _ measured_cons.symm

/-! ## Where the places go apart -/

/-- Whether the places of tokens are true can be told from their lexemes.  A position that is behind
    the true one on its line is so until a line feed. -/
def Judged (lx : Lexicon) (ls : List (Lexeme κ)) : Prop :=
  ∀ p q : Position, p.line = q.line → p.col ≤ q.col →
    (Lexicon.marksFrom lx.after p ls = Lexicon.marksFrom (fun p l => p.walk l.raw) q ls ↔
      Measured lx ls ∧ (p.col = q.col ∨ FeedAhead ls))

theorem judged_nil : Judged lx ([] : List (Lexeme κ)) := by
  intro p q hline hcol
  simp [Lexicon.marksFrom, measured_nil, not_feedAhead_nil, Position.eq_iff_of_line hline]

/-- A lexeme over which the position is walked is measured rightly. -/
theorem Judged.cons {l : Lexeme κ} {ls : List (Lexeme κ)} (h : Judged lx ls)
    (hafter : ∀ p, lx.after p l = p.walk l.raw)
    (hmeasured : Measured lx (l :: ls) ↔ Measured lx ls) : Judged lx (l :: ls) := by
  intro p q hline hcol
  have hcols := Position.eq_iff_of_line hline
  have hnext := h (p.walk l.raw) (q.walk l.raw)
    (by rw [Position.line_walk, Position.line_walk, hline]) (Position.col_walk_le hline hcol)
  rw [Position.col_walk_eq_iff hline] at hnext
  rw [hmeasured, feedAhead_cons, Lexicon.marksFrom, Lexicon.marksFrom, hafter]
  unfold Lexeme.isToken
  cases hrole : l.role with
  | token kind value =>
    simp only [List.cons.injEq, Prod.mk.injEq, true_and, hnext, hcols]
    constructor
    · rintro ⟨hsame, hrest, -⟩
      exact ⟨hrest, .inl hsame⟩
    · rintro ⟨hrest, hsame | ⟨hgap, -⟩⟩
      · exact ⟨hsame, hrest, .inl (.inl hsame)⟩
      · cases hgap
  | _ => simp only [hnext, true_and, or_assoc]

/-- Over a block comment that is closed on its line the position is walked two columns too few. -/
theorem Judged.comment {ls : List (Lexeme κ)} (h : Judged lx ls) (body : Text) :
    Judged lx (⟨"/*" ++ (body ++ "*/"), .blockComment body⟩ :: ls) := by
  intro p q hline hcol
  have htrue : q.walk ("/*" ++ (body ++ "*/")) = ((q.along 2).walk body).along 2 := by
    rw [Position.walk_append, Position.walk_append]
    rfl
  show Lexicon.marksFrom lx.after ((p.walk body).along 2) ls =
    Lexicon.marksFrom _ (q.walk ("/*" ++ (body ++ "*/"))) ls ↔ _
  rw [htrue, measured_cons, Lexeme.isRunaway_comment, Lexeme.isInline_comment, feedAhead_cons]
  by_cases hbody : ('\n' : CodePoint) ∈ body
  · -- The two columns are forgotten at the line feed of the comment.
    have hsame : p.walk body = (q.along 2).walk body := Position.walk_eq_of_mem hbody hline
    rw [hsame, h _ _ rfl le_rfl]
    simp [Lexeme.isSpread, Lexeme.isToken, hbody]
  · -- The position falls behind, so that only a line feed in front of the next token helps.
    let p' := (p.along body.length).along 2
    let q' := ((q.along 2).along body.length).along 2
    have hlt : p'.col < q'.col := by
      simp only [p', q', Position.along]
      omega
    rw [Position.walk_of_not_mem hbody, Position.walk_of_not_mem hbody, h p' q' hline hlt.le,
      or_iff_right hlt.ne]
    constructor
    · rintro ⟨hrest, hfeed⟩
      exact ⟨⟨⟨fun _ => rfl, rfl, fun _ => hfeed⟩, hrest⟩, .inr ⟨rfl, .inr hfeed⟩⟩
    · rintro ⟨⟨⟨-, -, hfeed⟩, hrest⟩, -⟩
      exact ⟨hrest, hfeed hbody⟩

/-- Over a block comment that is not closed the position is walked two columns too many, if the
    comment has several lines. -/
theorem judged_openComment (body : Text) :
    Judged lx [(⟨"/*" ++ body, .blockComment body⟩ : Lexeme κ)] := by
  by_cases hbody : ('\n' : CodePoint) ∈ body
  · -- The closing mark that is missing counts two columns on the last line.
    intro p q hline hcol
    have hsame : p.walk body = (q.along 2).walk body := Position.walk_eq_of_mem hbody hline
    have hrunaway := (Lexeme.isRunaway_openComment (κ := κ) body).2 hbody
    have hplaces : (p.walk body).along 2 ≠ q.walk ("/*" ++ body) := by
      rw [Position.walk_append, hsame]
      intro h
      have hcols : ((q.along 2).walk body).col + 2 = ((q.along 2).walk body).col :=
        congrArg Position.col h
      omega
    constructor
    · intro h
      exact absurd (Prod.mk.inj (Prod.mk.inj (List.cons.inj h).1).2).2 hplaces
    · rintro ⟨h, -⟩
      exact absurd (h.closed _ List.mem_cons_self) (by rw [hrunaway]; decide)
  · -- Within one line the two columns are those of the opening mark.
    apply judged_nil.cons
    · intro p
      have hmark : (p.walk ("/*" : Text)) = p.along 2 := rfl
      show (p.walk body).along 2 = p.walk ("/*" ++ body)
      rw [Position.walk_append, hmark, Position.walk_of_not_mem hbody,
        Position.walk_of_not_mem hbody]
      simp only [Position.along, Nat.add_right_comm]
    · have hrunaway : (⟨"/*" ++ body, .blockComment body⟩ : Lexeme κ).isRunaway = false :=
        Bool.eq_false_iff.2 fun h => hbody ((Lexeme.isRunaway_openComment body).1 h)
      exact measured_cons_of_counted (fun _ => rfl) hrunaway (Lexeme.isInline_openComment body)

/-! ## Lines that are not counted -/

theorem isSpread_literal (raw value : Text) :
    (⟨raw, .token .string value⟩ : Lexeme κ).isSpread = false ↔ ('\n' : CodePoint) ∉ raw := by
  simp [Lexeme.isSpread]

theorem after_literal_of_counted {raw : Text} (value : Text)
    (h : lx.linesInLiterals = false → ('\n' : CodePoint) ∉ raw) (p : Position) :
    lx.after p (⟨raw, .token .string value⟩ : Lexeme κ) = p.walk raw := by
  show (if lx.linesInLiterals then p.walk raw else p.along raw.length) = p.walk raw
  cases hlines : lx.linesInLiterals with
  | true => rfl
  | false => exact (Position.walk_of_not_mem (h hlines)).symm

/-- Where lines inside of literals do not count, a literal of several lines leaves the position on
    its first line. -/
theorem line_after_literal_lt {raw : Text} (value : Text) (hlines : lx.linesInLiterals = false)
    (hraw : ('\n' : CodePoint) ∈ raw) {p q : Position} (hline : p.line = q.line) :
    (lx.after p (⟨raw, .token .string value⟩ : Lexeme κ)).line < (q.walk raw).line := by
  have hcount := List.count_pos_iff.2 hraw
  have hafter : lx.after p (⟨raw, .token .string value⟩ : Lexeme κ) = p.along raw.length := by
    unfold Lexicon.after
    dsimp only
    rw [hlines, if_neg Bool.false_ne_true]
  rw [hafter, Position.line_walk, ← hline]
  show p.line < _
  omega

/-- Over the lexeme the position is walked as many lines as it has, or fewer ones if it is a literal
    whose lines do not count. -/
def WithinLines (lx : Lexicon) (l : Lexeme κ) : Prop :=
  ∀ p : Position,
    (lx.linesInLiterals = false → l.isSpread = false) ∧ (lx.after p l).line = (p.walk l.raw).line ∨
      (lx.linesInLiterals = false ∧ l.isSpread = true) ∧ (lx.after p l).line < (p.walk l.raw).line

theorem withinLines_literal (raw value : Text) :
    WithinLines lx (⟨raw, .token .string value⟩ : Lexeme κ) := by
  intro p
  by_cases hcounted : lx.linesInLiterals = false → ('\n' : CodePoint) ∉ raw
  · left
    rw [isSpread_literal, after_literal_of_counted value hcounted]
    exact ⟨hcounted, rfl⟩
  · right
    obtain ⟨hlines, hraw⟩ := Classical.not_imp.1 hcounted
    rw [← Bool.not_eq_false, isSpread_literal]
    exact ⟨⟨hlines, hraw⟩, line_after_literal_lt value hlines (not_not.1 hraw) rfl⟩

theorem Cut.withinLines {t : Text} {ls : List (Lexeme κ)} (h : Cut t ls) :
    ∀ l ∈ ls, WithinLines lx l := by
  have hbody : ∀ (p : Position) (body raw : Text),
      raw.count ('\n' : CodePoint) = body.count ('\n' : CodePoint) →
        (p.walk body).line = (p.walk raw).line := fun p body raw hcount => by
    rw [Position.line_walk, Position.line_walk, hcount]
  -- The marks of comments have no line feeds.
  have hmarks : ("/*" : Text).count ('\n' : CodePoint) = 0 ∧
      ("*/" : Text).count ('\n' : CodePoint) = 0 := by decide
  induction h with
  | nil => exact List.forall_mem_nil _
  | gap c _ ih => exact List.forall_mem_cons.2 ⟨fun p => .inl ⟨fun _ => rfl, rfl⟩, ih⟩
  | lineComment hraw _ ih =>
    apply List.forall_mem_cons.2 ⟨fun p => .inl ⟨fun _ => rfl, ?_⟩, ih⟩
    rw [Position.walk_of_not_mem hraw]
    rfl
  | comment body _ ih =>
    apply List.forall_mem_cons.2 ⟨fun p => .inl ⟨fun _ => rfl, ?_⟩, ih⟩
    exact hbody p body _ (by simp [hmarks])
  | openComment body =>
    intro l hl p
    obtain rfl := List.mem_singleton.1 hl
    exact .inl ⟨fun _ => rfl, hbody p body _ (by simp [hmarks])⟩
  | literal hquote w value _ ih => exact List.forall_mem_cons.2 ⟨withinLines_literal _ value, ih⟩
  | @token raw _ kind _ hkind hraw _ ih =>
    apply List.forall_mem_cons.2 ⟨fun p => ?_, ih⟩
    rw [Position.walk_of_not_mem hraw]
    cases kind with
    | string => exact absurd rfl hkind
    | _ => exact .inl ⟨fun _ => rfl, rfl⟩

section Lines

variable {ls : List (Lexeme κ)} {p q : Position}

/-- A position that is on an earlier line stays behind until the end. -/
theorem lines_ne_of_lt (hls : ∀ l ∈ ls, WithinLines lx l) (hlt : p.line < q.line) :
    (Lexicon.marksFrom lx.after p ls).map (·.2.2.line) ≠
      (Lexicon.marksFrom (fun p l => p.walk l.raw) q ls).map (·.2.2.line) := by
  induction ls generalizing p q with
  | nil =>
    intro h
    exact absurd (List.cons.inj h).1 hlt.ne
  | cons l ls ih =>
    obtain ⟨hl, hls⟩ := List.forall_mem_cons.1 hls
    -- The position makes up no line, whatever the lexeme is.
    have hnext : (lx.after p l).line < (q.walk l.raw).line := by
      have hle : (lx.after p l).line ≤ (p.walk l.raw).line := by
        rcases hl p with ⟨-, heq⟩ | ⟨-, hfewer⟩
        · exact heq.le
        · exact hfewer.le
      rw [Position.line_walk] at hle ⊢
      omega
    have hrest := ih hls hnext
    rw [Lexicon.marksFrom, Lexicon.marksFrom]
    cases hrole : l.role with
    | token kind value => exact fun h => hrest (List.cons.inj h).2
    | _ => exact hrest

/-- The lines alone are true exactly if all lines count. -/
theorem lines_eq_iff (hls : ∀ l ∈ ls, WithinLines lx l) (hline : p.line = q.line) :
    (Lexicon.marksFrom lx.after p ls).map (·.2.2.line) =
        (Lexicon.marksFrom (fun p l => p.walk l.raw) q ls).map (·.2.2.line) ↔
      (lx.linesInLiterals = false → ∀ l ∈ ls, l.isSpread = false) := by
  induction ls generalizing p q with
  | nil => simp [Lexicon.marksFrom, hline]
  | cons l ls ih =>
    obtain ⟨hl, hls⟩ := List.forall_mem_cons.1 hls
    have hwalk : (p.walk l.raw).line = (q.walk l.raw).line := by
      rw [Position.line_walk, Position.line_walk, hline]
    rw [List.forall_mem_cons, Lexicon.marksFrom, Lexicon.marksFrom]
    rcases hl p with ⟨hcounted, heq⟩ | ⟨⟨hlines, hspread⟩, hfewer⟩
    · rw [imp_and, and_iff_right hcounted, ← ih hls (heq.trans hwalk)]
      cases hrole : l.role with
      | token kind value => simp [hline]
      | _ => exact Iff.rfl
    · -- Once lines have been left out, all tokens behind are placed too high.
      have hrest := lines_ne_of_lt hls (hwalk ▸ hfewer)
      have hnot : ¬(lx.linesInLiterals = false → l.isSpread = false ∧
          ∀ m ∈ ls, m.isSpread = false) :=
        fun h => by
          rw [hspread] at h
          cases (h hlines).1
      cases hrole : l.role with
      | token kind value => exact iff_of_false (fun h => hrest (List.cons.inj h).2) hnot
      | _ => exact iff_of_false hrest hnot

end Lines

/-- A literal of several lines leaves the position on its first line, where lines inside of literals
    do not count. -/
theorem Judged.literal {ls : List (Lexeme κ)} (h : Judged lx ls) (hls : ∀ l ∈ ls, WithinLines lx l)
    (raw value : Text) : Judged lx (⟨raw, .token .string value⟩ :: ls) := by
  by_cases hcounted : lx.linesInLiterals = false → ('\n' : CodePoint) ∉ raw
  · apply h.cons (after_literal_of_counted value hcounted)
    apply measured_cons_of_counted _ rfl rfl
    rwa [isSpread_literal]
  · obtain ⟨hlines, hraw⟩ := Classical.not_imp.1 hcounted
    intro p q hline hcol
    constructor
    · intro heq
      have hlt := line_after_literal_lt (κ := κ) value hlines (not_not.1 hraw) hline
      exact absurd (congrArg (List.map (·.2.2.line)) (List.cons.inj heq).2) (lines_ne_of_lt hls hlt)
    · rintro ⟨hmeasured, -⟩
      have hspread := hmeasured.counted hlines _ List.mem_cons_self
      exact absurd ((isSpread_literal raw value).1 hspread) hraw

/-- Whatever a text is cut into, the lexemes tell if the places are true. -/
theorem Cut.judged {t : Text} {ls : List (Lexeme κ)} (h : Cut t ls) : Judged lx ls := by
  -- Over all but comments with marks and literals the position is walked, as they have no line feed
  -- or are one.
  induction h with
  | nil => exact judged_nil
  | gap c _ ih => exact ih.cons (fun _ => rfl) (measured_cons_of_counted (fun _ => rfl) rfl rfl)
  | lineComment hraw _ ih =>
    apply ih.cons
    · intro p
      rw [Position.walk_of_not_mem hraw]
      rfl
    · exact measured_cons_of_counted (fun _ => rfl) rfl rfl
  | comment body _ ih => exact ih.comment body
  | openComment body => exact judged_openComment body
  | literal hquote w value h ih => exact ih.literal h.withinLines _ value
  | @token raw _ kind _ hkind hraw _ ih =>
    apply ih.cons
    · intro p
      rw [Position.walk_of_not_mem hraw]
      cases kind with
      | string => exact absurd rfl hkind
      | _ => rfl
    · cases kind with
      | string => exact absurd rfl hkind
      | _ => exact measured_cons_of_counted (fun _ => rfl) rfl rfl

/-! ## Texts -/

namespace Lexicon

variable [Keyword κ]

theorem map_mark_tokens (t : Text) :
    (lx.tokens t : List (Token κ)).map Token.mark = marksFrom lx.after .start (lx.lexemes t) :=
  map_mark_place none [] .start (lx.lexemes t)

theorem map_mark_sites (t : Text) :
    (lx.sites t : List (Site κ)).map Site.mark =
      marksFrom (fun p l => p.walk l.raw) .start (lx.lexemes t) :=
  map_mark_sitesFrom [] (lx.lexemes t)

theorem map_kind_value_tokens (t : Text) :
    (lx.tokens t : List (Token κ)).map (fun u => (u.kind, u.value)) =
      (lx.sites t).map fun s => (s.kind, s.value) := by
  have hsame := map_marksFrom lx.after (fun p l => p.walk l.raw) .start .start
    (lx.lexemes t : List (Lexeme κ))
  rw [← map_mark_tokens, ← map_mark_sites, List.map_map, List.map_map] at hsame
  exact hsame

/-- The places of the tokens of a text are true exactly if its lexemes are measured rightly. -/
theorem map_mark_tokens_eq_iff (t : Text) :
    (lx.tokens t : List (Token κ)).map Token.mark = (lx.sites t).map Site.mark ↔
      Measured lx (lx.lexemes t : List (Lexeme κ)) := by
  have hcut : Cut t (lx.lexemes t : List (Lexeme κ)) := cut_lexemes t
  rw [map_mark_tokens, map_mark_sites, hcut.judged .start .start rfl le_rfl]
  exact and_iff_left (.inl rfl)

theorem map_line_tokens_eq_iff (t : Text) :
    (lx.tokens t : List (Token κ)).map (·.pos.line) =
        (lx.sites t : List (Site κ)).map (·.pos.line) ↔
      (lx.linesInLiterals = false → ∀ l ∈ (lx.lexemes t : List (Lexeme κ)),
        l.isSpread = false) := by
  have hwithin : ∀ l ∈ (lx.lexemes t : List (Lexeme κ)), WithinLines lx l :=
    (cut_lexemes t).withinLines
  have hstart : Position.start.line = Position.start.line := rfl
  have hlines := lines_eq_iff hwithin hstart
  rw [← map_mark_tokens, ← map_mark_sites, List.map_map, List.map_map] at hlines
  exact hlines

end Lexicon

/-- What a reader complains about in a text. -/
def complaint? {δ : Type} (read? : Text → Except (SyntaxError κ) δ) (t : Text) :
    Option (SyntaxError κ) :=
  match read? t with
  | .ok _ => none
  | .error e => some e

/-- Where the tokens of a text stand, and where a language says that they stand.  Every token stands
    in the text, the last one at its end, and is known for what it is.  The lines are all true
    exactly if those inside of literals are counted or there are none, the places exactly if the
    lexemes are measured rightly.  A complaint about the text then names the true place of one of
    its tokens. -/
structure Located {δ : Type} (lx : Lexicon) (κ : Type) [Keyword κ]
    (read? : Text → Except (SyntaxError κ) δ) (t : Text) : Prop where
  stands : ∀ s ∈ (lx.sites t : List (Site κ)), s.In t
  ended : (lx.sites t : List (Site κ)).getLast? = some ⟨.eof, [], [], t⟩
  known : (lx.tokens t : List (Token κ)).map (fun u => (u.kind, u.value)) =
    (lx.sites t).map fun s => (s.kind, s.value)
  lined : (lx.tokens t : List (Token κ)).map (·.pos.line) =
      (lx.sites t : List (Site κ)).map (·.pos.line) ↔
    (lx.linesInLiterals = false → ∀ l ∈ (lx.lexemes t : List (Lexeme κ)), l.isSpread = false)
  placed : (lx.tokens t : List (Token κ)).map Token.mark = (lx.sites t).map Site.mark ↔
    Measured lx (lx.lexemes t : List (Lexeme κ))
  blamed : Measured lx (lx.lexemes t : List (Lexeme κ)) → ∀ e ∈ complaint? read? t,
    ∃ s ∈ lx.sites t, e.token.mark = s.mark ∧
      e.message =
        "Line " ++ Text.ofNat s.pos.line ++ ":" ++ Text.ofNat s.pos.col ++ ": " ++ e.reason

theorem located_of_proceeds [DecidableEq κ] [Keyword κ] {δ : Type} {p : Parser κ δ}
    {read? : Text → Except (SyntaxError κ) δ} {Q : δ → Nat → Prop} (t : Text)
    (hread : read? t = Parser.parse p (lx.tokens t))
    (h : Ended (lx.tokens t : List (Token κ)) → Parser.Proceeds (lx.tokens t) 0 p Q) :
    Located lx κ read? t := by
  have hcut : Cut t (lx.lexemes t : List (Lexeme κ)) := Lexicon.cut_lexemes t
  constructor
  · exact Lexicon.in_of_mem_sitesFrom hcut []
  · rw [Lexicon.sites, Lexicon.getLast?_sitesFrom, hcut.flatMap_raw, List.nil_append]
  · exact Lexicon.map_kind_value_tokens t
  · exact Lexicon.map_line_tokens_eq_iff t
  · exact Lexicon.map_mark_tokens_eq_iff t
  · intro hmeasured e he
    have hts : Ended (lx.tokens t : List (Token κ)) := lx.ended_tokens t
    rw [complaint?, hread] at he
    rcases Parser.parse_of_proceeds hts (h hts) with ⟨d, hd⟩ | ⟨e', he', -, htoken⟩
    · rw [hd] at he
      cases he
    · rw [he'] at he
      obtain rfl : e' = e := Option.some.inj he
      -- The token is one of the text, so it has the mark of a site.
      have hmark : e'.token.mark ∈ (lx.sites t).map Site.mark := by
        rw [← (Lexicon.map_mark_tokens_eq_iff t).2 hmeasured]
        exact List.mem_map_of_mem htoken
      obtain ⟨s, hs, heq⟩ := List.mem_map.1 hmark
      have hpos : s.pos = e'.token.pos := congrArg (·.2.2) heq
      exact ⟨s, hs, heq.symm, by rw [hpos]; rfl⟩

/-- In both languages the tokens of a text are at their true places exactly if every block comment
    that is closed on its line has a line feed between itself and the next token, no block comment
    of several lines is left open, and in Proto no literal has several lines. -/
theorem located_proto_and_thrift (t : Text) :
    Located Proto.lexicon Proto.Word Proto.File.ofText? t ∧
      Located Thrift.lexicon Thrift.Word Thrift.Document.ofText? t := by
  constructor
  · exact located_of_proceeds t rfl fun hts => Proto.Parser.proceeds_file hts
  · exact located_of_proceeds t rfl fun hts => Thrift.Parser.proceeds_document hts

/-- A comment on a line of its own, a comment of two lines in front of a token, and a literal of two
    lines. -/
def remarkedText : Text :=
  "/* a */\n/* b\nc */ = 'd\ne' x"

/-- The complaint about the text in `remarkedText`. -/
def remarkedError : SyntaxError Thrift.Word where
  complaint := .unexpected .topLevel
  token :=
    { kind := .delimiter .equals, value := "=", pos := ⟨3, 6⟩, comment := "/* a */\n/* b\nc */" }

/-- All of them are measured rightly in Thrift, and the complaint about the first token names its
    place. -/
theorem located_remarkedText :
    (Thrift.tokens remarkedText).map Token.mark =
        ([(.delimiter .equals, "=", ⟨3, 6⟩), (.string, "d\ne", ⟨3, 8⟩), (.ident, "x", ⟨4, 4⟩),
          (.eof, [], ⟨4, 5⟩)] : List (Kind Thrift.Word × Text × Position)) ∧
      complaint? Thrift.Document.ofText? remarkedText = some remarkedError ∧
      ∃ s ∈ (Thrift.lexicon.sites remarkedText : List (Site Thrift.Word)),
        remarkedError.token.mark = s.mark := by
  have hmeasured : Measured Thrift.lexicon
      (Thrift.lexicon.lexemes remarkedText : List (Lexeme Thrift.Word)) := by decide +kernel
  have herror : complaint? Thrift.Document.ofText? remarkedText = some remarkedError := by
    decide +kernel
  obtain ⟨s, hs, hmark, -⟩ := (located_proto_and_thrift remarkedText).2.blamed hmeasured _ herror
  refine ⟨?_, herror, s, hs, hmark⟩
  rw [Thrift.tokens, (located_proto_and_thrift remarkedText).2.placed.2 hmeasured]
  decide +kernel

/-- Behind a comment on its line a token is said to be two columns in front of its place, in both
    languages and in complaints, and so is the end of the text. -/
theorem misplaced_behindComment :
    (Proto.tokens "/* a */ x").map (·.pos) = [⟨1, 7⟩, ⟨1, 8⟩] ∧
      (Proto.lexicon.sites "/* a */ x" : List (Site Proto.Word)).map (·.pos) = [⟨1, 9⟩, ⟨1, 10⟩] ∧
      (Thrift.tokens "/* a */ x").map (·.pos) = [⟨1, 7⟩, ⟨1, 8⟩] ∧
      (Thrift.lexicon.sites "/* a */ x" : List (Site Thrift.Word)).map (·.pos) =
        [⟨1, 9⟩, ⟨1, 10⟩] ∧
      (complaint? Proto.File.ofText? "/* a */ x").map (·.message) =
        some "Line 1:7: Unexpected IDENT ('x') at top level" := by
  decide +kernel

end IdlBridge.Idl
