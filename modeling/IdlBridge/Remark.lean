import IdlBridge.Text.Alphabet

/-! # Descriptions from comments

    The comment block above a declaration becomes its description. Line comments start with `//`
    or `#` and end with their line, block comments stand between `/*` and `*/`; the markers, the
    stars that decorate a block and the blanks around each line are dropped, as are notes to
    linters, which stand between `(-- ` and ` --)`.
-/

namespace IdlBridge

namespace Remark

/-- The part before the first `*/` and the part after it. -/
def closeBlock? : Text → Option (Text × Text)
  | a :: b :: rest =>
    if a = '*' ∧ b = '/' then some ([], rest)
    else (closeBlock? (b :: rest)).map fun p => (a :: p.1, p.2)
  | _ => none

theorem length_closeBlock? {t body rest : Text} (h : closeBlock? t = some (body, rest)) :
    rest.length < t.length := by
  induction t generalizing body with
  | nil => simp [closeBlock?] at h
  | cons a t ih =>
    cases t with
    | nil => simp [closeBlock?] at h
    | cons b r =>
      rw [closeBlock?] at h
      split at h
      · simp only [Option.some.injEq, Prod.mk.injEq] at h
        simp only [← h.2, List.length_cons]
        omega
      · simp only [Option.map_eq_some_iff, Prod.mk.injEq] at h
        obtain ⟨⟨x, y⟩, hxy, -, rfl⟩ := h
        have := ih hxy
        simp only [List.length_cons] at this ⊢
        omega

/-- The rest of a line comment after its marker: the blanks in front of it may span lines. -/
def lineText (t : Text) : Text :=
  (t.dropWhile CodePoint.isBlank).takeWhile (· != '\n')

/-- What follows a line comment. -/
def afterLine (t : Text) : Text :=
  (t.dropWhile CodePoint.isBlank).dropWhile (· != '\n')

theorem length_afterLine_le (t : Text) : (afterLine t).length ≤ t.length :=
  Nat.le_trans (List.dropWhile_sublist _).length_le (List.dropWhile_sublist _).length_le

/-- A line of a block comment without its blanks and without a star in front. -/
def blockLine (line : Text) : Text :=
  match Text.strip line with
  | c :: rest => if c = '*' then Text.strip rest else c :: rest
  | [] => []

/-- The text of a block comment. -/
def blockText (body : Text) : Text :=
  Text.strip (Text.join "\n" ((Text.lines body).map blockLine))

set_option linter.unusedVariables false in
/-- The texts of the comments of a block of source, from the left. -/
def comments : Text → List Text
  | [] => []
  | c :: rest =>
    if c = '#' then Text.strip (lineText rest) :: comments (afterLine rest)
    else if c = '/' then
      match rest with
      | [] => []
      | d :: tail =>
        if d = '/' then Text.strip (lineText tail) :: comments (afterLine tail)
        else if d = '*' then
          match h : closeBlock? tail with
          | some (body, after) => blockText body :: comments after
          -- A block that is not closed is no comment, but comments may start inside it.
          | none => comments (d :: tail)
        else comments (d :: tail)
    else comments rest
termination_by t => t.length
decreasing_by
  · have := length_afterLine_le rest
    simp
    omega
  · have := length_afterLine_le tail
    simp
    omega
  · have := length_closeBlock? h
    simp
    omega
  all_goals simp

/-- What follows the last `mark` in the line that starts a text. -/
def afterLastMark? (mark : Text) : Text → Option Text
  | [] => none
  | c :: rest =>
    if c = '\n' then none
    else
      match afterLastMark? mark rest with
      | some after => some after
      | none => if mark.isPrefixOf (c :: rest) then some ((c :: rest).drop mark.length) else none

theorem length_afterLastMark? {mark t after : Text} (h : afterLastMark? mark t = some after) :
    after.length ≤ t.length := by
  induction t with
  | nil => simp [afterLastMark?] at h
  | cons c rest ih =>
    rw [afterLastMark?] at h
    split at h
    · simp at h
    · split at h
      · rename_i a ha
        cases h
        have := ih ha
        simp
        omega
      · split at h
        · cases h
          simp
        · simp at h

set_option linter.unusedVariables false in
/-- Drops each note to a linter: from `(-- ` up to the last ` --)` of the line. -/
def dropNotes : Text → Text
  | [] => []
  | c :: rest =>
    let opening : Text := "(-- "
    if opening.isPrefixOf (c :: rest) then
      match h : afterLastMark? " --)" (rest.drop 3) with
      | some after => dropNotes after
      | none => c :: dropNotes rest
    else c :: dropNotes rest
termination_by t => t.length
decreasing_by
  · have := length_afterLastMark? h
    simp at this ⊢
    omega
  all_goals simp

/-- The description that a block of comments gives. -/
def description (block : Text) : Text :=
  Text.strip (dropNotes (Text.join "\n" ((comments block).filter (· ≠ []))))

end Remark

end IdlBridge
