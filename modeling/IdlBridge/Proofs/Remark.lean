import IdlBridge.Proofs.Text
import IdlBridge.Remark

/-! # What blocks of line comments say

    A block of line comments has one text a line, each behind a marker.  The scan of a block takes
    a marker, skips blanks, and takes the rest of the line.  But a line feed is a blank: a line
    without a text of its own takes the next line for its text, and that line's marker with it.

    So a block says its texts, stripped and without the blank ones, exactly if no line but the last
    is blank.
-/

namespace IdlBridge.Remark

/-! ## Blocks -/

/-- What a line comment starts with. -/
inductive Marker where
  | slashes
  | hash
deriving DecidableEq

namespace Marker

/-- The text of the marker. -/
def text : Marker → Text
  | slashes => "//"
  | hash => "#"

/-- The line of a text: the marker, a space and the text, or the marker alone if there is none. -/
def line (m : Marker) (t : Text) : Text :=
  if t = [] then m.text else m.text ++ " " ++ t

/-- The block of a list of texts, one line each. -/
def block (m : Marker) (texts : List Text) : Text :=
  Text.join "\n" (texts.map m.line)

/-- What the scan of the block takes for the texts of its comments: behind a blank text, the next
    line as a whole. -/
def heard (m : Marker) : List Text → List Text
  | [] => []
  | [t] => [Text.strip t]
  | t :: u :: rest =>
    if Text.strip t = [] then Text.strip (m.line u) :: m.heard rest
    else Text.strip t :: m.heard (u :: rest)

end Marker

/-! ## Lines -/

/-- What stands behind the marker in the line of a text. -/
def padded (t : Text) : Text :=
  if t = [] then [] else (' ' : CodePoint) :: t

theorem line_eq (m : Marker) (t : Text) : m.line t = m.text ++ padded t := by
  unfold Marker.line padded
  split
  · rw [List.append_nil]
  · rw [List.append_assoc]
    rfl

theorem strip_padded (t : Text) : Text.strip (padded t) = Text.strip t := by
  have hspace : (' ' : CodePoint).isBlank = true := by decide
  unfold padded
  split
  · next h => rw [h]
  · rw [Text.strip, Text.strip, ← Text.trim_dropWhile, List.dropWhile_cons_of_pos hspace,
      Text.trim_dropWhile]

theorem not_mem_padded {t : Text} (h : ('\n' : CodePoint) ∉ t) : ('\n' : CodePoint) ∉ padded t := by
  unfold padded
  split
  · exact List.not_mem_nil
  · exact List.not_mem_cons_of_ne_of_not_mem (by decide) h

theorem not_mem_line {m : Marker} {t : Text} (h : ('\n' : CodePoint) ∉ t) :
    ('\n' : CodePoint) ∉ m.line t := by
  have hmarker : ('\n' : CodePoint) ∉ m.text := by cases m <;> decide
  rw [line_eq, List.mem_append]
  exact not_or.2 ⟨hmarker, not_mem_padded h⟩

/-- The lines behind the first one. -/
def following (m : Marker) (texts : List Text) : Text :=
  texts.flatMap fun t => (("\n" : Text) ++ m.line t)

theorem block_cons (m : Marker) (t : Text) (texts : List Text) :
    m.block (t :: texts) = m.text ++ (padded t ++ following m texts) := by
  rw [Marker.block, List.map_cons, Text.join_cons, List.flatMap_map, line_eq, List.append_assoc]
  rfl

theorem following_cons (m : Marker) (t : Text) (texts : List Text) :
    following m (t :: texts) = ('\n' : CodePoint) :: m.block (t :: texts) := by
  rw [block_cons, following, List.flatMap_cons, line_eq, List.append_assoc, List.append_assoc]
  rfl

/-! ## One step of the scan -/

theorem comments_marker (m : Marker) (t : Text) :
    comments (m.text ++ t) = Text.strip (lineText t) :: comments (afterLine t) := by
  cases m with
  | slashes =>
    have hhash : ('/' : CodePoint) ≠ '#' := by decide
    show comments (('/' : CodePoint) :: ('/' : CodePoint) :: t) = _
    rw [comments.eq_def]
    simp [hhash]
  | hash =>
    show comments (('#' : CodePoint) :: t) = _
    rw [comments.eq_def]
    simp

/-- Between comments the scan skips what starts none. -/
theorem comments_following (m : Marker) (texts : List Text) :
    comments (following m texts) = comments (m.block texts) := by
  have hhash : ('\n' : CodePoint) ≠ '#' := by decide
  have hslash : ('\n' : CodePoint) ≠ '/' := by decide
  cases texts with
  | nil => rfl
  | cons t texts =>
    rw [following_cons, comments.eq_def]
    simp [hhash, hslash]

/-- A text without line feeds is read to its end in front of the lines behind it. -/
theorem takeWhile_feed {s : Text} (hs : ('\n' : CodePoint) ∉ s) (m : Marker) (texts : List Text) :
    (s ++ following m texts).takeWhile (· != ('\n' : CodePoint)) = s ∧
      (s ++ following m texts).dropWhile (· != ('\n' : CodePoint)) = following m texts := by
  have hinside : ∀ c ∈ s, (c != ('\n' : CodePoint)) = true := by
    intro c hc
    have hne : c ≠ '\n' := fun heq => hs (heq ▸ hc)
    simpa using hne
  rw [List.takeWhile_append_of_pos hinside, List.dropWhile_append_of_pos hinside]
  cases texts with
  | nil => exact ⟨List.append_nil s, rfl⟩
  | cons t texts =>
    have hfeed : following m (t :: texts) = ('\n' : CodePoint) :: m.block (t :: texts) :=
      following_cons m t texts
    rw [hfeed, List.takeWhile_cons_of_neg (by simp), List.dropWhile_cons_of_neg (by simp)]
    exact ⟨List.append_nil s, rfl⟩

/-- A line with a text of its own, or the last line, ends with its text. -/
theorem line_of_text (m : Marker) {s : Text} (hs : ('\n' : CodePoint) ∉ s) {texts : List Text}
    (h : Text.strip s ≠ [] ∨ texts = []) :
    Text.strip (lineText (s ++ following m texts)) = Text.strip s ∧
      afterLine (s ++ following m texts) = following m texts := by
  have hdrop : (s ++ following m texts).dropWhile CodePoint.isBlank =
      s.dropWhile CodePoint.isBlank ++ following m texts := by
    rw [List.dropWhile_append]
    split
    · next hempty =>
      rw [List.isEmpty_iff, List.dropWhile_eq_nil_iff] at hempty
      -- A blank text is the last one, so no marker of the next line is swallowed with it.
      have htexts : texts = [] := h.resolve_left fun hne => hne (Text.trim_eq_nil.2 hempty)
      have hnil : s.dropWhile CodePoint.isBlank = [] := List.dropWhile_eq_nil_iff.2 hempty
      rw [htexts, hnil]
      rfl
    · rfl
  have hfeed : ('\n' : CodePoint) ∉ s.dropWhile CodePoint.isBlank :=
    fun hmem => hs ((List.dropWhile_suffix _).subset hmem)
  obtain ⟨htake, hafter⟩ := takeWhile_feed hfeed m texts
  rw [lineText, afterLine, hdrop, htake, hafter]
  exact ⟨Text.trim_dropWhile s, rfl⟩

/-- A blank line takes the line behind it. -/
theorem line_of_blank (m : Marker) {s : Text} (hs : Text.strip s = []) {u : Text}
    (hu : ('\n' : CodePoint) ∉ u) (texts : List Text) :
    lineText (s ++ following m (u :: texts)) = m.line u ∧
      afterLine (s ++ following m (u :: texts)) = following m texts := by
  have hfeed : ('\n' : CodePoint).isBlank = true := by decide
  have hmarker : ∀ t : Text, (m.text ++ t).dropWhile CodePoint.isBlank = m.text ++ t := by
    intro t
    cases m with
    | slashes => exact List.dropWhile_cons_of_neg (by decide)
    | hash => exact List.dropWhile_cons_of_neg (by decide)
  have hdrop : (s ++ following m (u :: texts)).dropWhile CodePoint.isBlank =
      m.line u ++ following m texts := by
    rw [List.dropWhile_append_of_pos (Text.trim_eq_nil.1 hs), following_cons,
      List.dropWhile_cons_of_pos hfeed, block_cons, hmarker, line_eq, List.append_assoc]
  have hline : ('\n' : CodePoint) ∉ m.line u := not_mem_line hu
  obtain ⟨htake, hafter⟩ := takeWhile_feed hline m texts
  rw [lineText, afterLine, hdrop, htake, hafter]
  exact ⟨rfl, rfl⟩

/-! ## The scan of a block -/

theorem comments_block_nil (m : Marker) : comments (m.block []) = [] := by
  show comments [] = []
  rw [comments]

/-- The comments of a block are what is heard of its texts. -/
theorem comments_block (m : Marker) {texts : List Text}
    (h : ∀ t ∈ texts, ('\n' : CodePoint) ∉ t) : comments (m.block texts) = m.heard texts := by
  induction texts using Marker.heard.induct with
  | case1 => exact comments_block_nil m
  | case2 t =>
    have ht := not_mem_padded (h t List.mem_cons_self)
    obtain ⟨hline, hafter⟩ := line_of_text m ht (.inr rfl)
    rw [block_cons, comments_marker, hline, hafter, comments_following, strip_padded,
      comments_block_nil]
    rfl
  | case3 t u rest hblank ih =>
    obtain ⟨ht, hu, hrest⟩ := List.forall_mem_cons.1 h |>.imp_right List.forall_mem_cons.1
    obtain ⟨hline, hafter⟩ := line_of_blank m ((strip_padded t).trans hblank) hu rest
    rw [block_cons, comments_marker, hline, hafter, comments_following, ih hrest, Marker.heard,
      if_pos hblank]
  | case4 t u rest htext ih =>
    obtain ⟨ht, hrest⟩ := List.forall_mem_cons.1 h
    have hne : Text.strip (padded t) ≠ [] := by rwa [strip_padded]
    obtain ⟨hline, hafter⟩ := line_of_text m (not_mem_padded ht) (.inl hne)
    rw [block_cons, comments_marker, hline, hafter, comments_following, ih hrest, strip_padded,
      Marker.heard, if_neg htext]

/-! ## Notes to linters -/

theorem dropNotes_eq_self {t : Text} (h : ¬("(--" : Text) <:+: t) : dropNotes t = t := by
  have hopening : ("(-- " : Text) = ("(--" : Text) ++ " " := rfl
  induction t with
  | nil => rw [dropNotes]
  | cons c t ih =>
    have hnote : ¬("(-- " : Text).isPrefixOf (c :: t) = true := by
      rw [List.isPrefixOf_iff_prefix, hopening]
      exact fun hpre => h ((List.prefix_append _ _).trans hpre).isInfix
    have ht : ¬("(--" : Text) <:+: t := fun hin => h (hin.trans (List.suffix_cons c t).isInfix)
    rw [dropNotes.eq_def]
    simp only [hnote]
    rw [ih ht]
    rfl

/-- No note starts in a marker. -/
theorem not_infix_line {m : Marker} {t : Text} (h : ¬("(--" : Text) <:+: t) :
    ¬("(--" : Text) <:+: m.line t := by
  have hskip : ∀ {c : CodePoint} {u : Text}, c ≠ '(' → ¬("(--" : Text) <:+: u →
      ¬("(--" : Text) <:+: c :: u := by
    intro c u hc hu hin
    rcases List.infix_cons_iff.1 hin with hpre | hin
    · exact hc (List.cons_prefix_cons.1 hpre).1.symm
    · exact hu hin
  have hpadded : ¬("(--" : Text) <:+: padded t := by
    unfold padded
    split
    · decide
    · exact hskip (by decide) h
  rw [line_eq]
  cases m with
  | slashes => exact hskip (by decide) (hskip (by decide) hpadded)
  | hash => exact hskip (by decide) hpadded

/-- No note starts in one text and ends in the next. -/
theorem not_infix_join {texts : List Text} (h : ∀ t ∈ texts, ¬("(--" : Text) <:+: t) :
    ¬("(--" : Text) <:+: Text.join "\n" texts := by
  have hfeed : ('\n' : CodePoint) ∉ ("(--" : Text) := by decide
  induction texts with
  | nil => decide
  | cons t texts ih =>
    obtain ⟨ht, htexts⟩ := List.forall_mem_cons.1 h
    cases texts with
    | nil => simpa [Text.join] using ht
    | cons u texts =>
      rw [Text.join_cons_cons]
      exact fun hin => (Text.infix_append_cons hfeed hin).elim ht (ih htexts)

/-- What is heard of texts without notes has no notes. -/
theorem not_infix_heard (m : Marker) {texts : List Text}
    (h : ∀ t ∈ texts, ¬("(--" : Text) <:+: t) : ∀ t ∈ m.heard texts, ¬("(--" : Text) <:+: t := by
  have hstrip : ∀ {t : Text}, ¬("(--" : Text) <:+: t → ¬("(--" : Text) <:+: Text.strip t :=
    fun ht hin => ht (hin.trans (Text.trim_infix _))
  induction texts using Marker.heard.induct with
  | case1 => exact nofun
  | case2 t => exact List.forall_mem_singleton.2 (hstrip (h t List.mem_cons_self))
  | case3 t u rest hblank ih =>
    obtain ⟨-, hu, hrest⟩ := List.forall_mem_cons.1 h |>.imp_right List.forall_mem_cons.1
    rw [Marker.heard, if_pos hblank]
    exact List.forall_mem_cons.2 ⟨hstrip (not_infix_line hu), ih hrest⟩
  | case4 t u rest htext ih =>
    obtain ⟨ht, hrest⟩ := List.forall_mem_cons.1 h
    rw [Marker.heard, if_neg htext]
    exact List.forall_mem_cons.2 ⟨hstrip ht, ih hrest⟩

/-! ## The description of a block -/

/-- Stripped texts on lines of their own have no blanks at their ends. -/
theorem trimmed_join {texts : List Text}
    (h : ∀ t ∈ texts, t ≠ [] ∧ Text.Trimmed CodePoint.isBlank t) :
    Text.Trimmed CodePoint.isBlank (Text.join "\n" texts) := by
  induction texts with
  | nil => exact ⟨nofun, nofun⟩
  | cons t texts ih =>
    obtain ⟨⟨hne, hfront, hend⟩, htexts⟩ := List.forall_mem_cons.1 h
    cases texts with
    | nil => simpa [Text.join] using ⟨hfront, hend⟩
    | cons u texts =>
      obtain ⟨-, hlast⟩ := ih htexts
      -- The end of the joined text is that of its last text, so the others do not matter there.
      have hjoin : Text.join "\n" (u :: texts) ≠ [] := by
        rw [Text.join_cons]
        exact List.append_ne_nil_of_left_ne_nil (htexts u List.mem_cons_self).1 _
      rw [Text.join_cons_cons]
      constructor
      · intro c hc
        obtain ⟨d, t, rfl⟩ := List.exists_cons_of_ne_nil hne
        exact hfront c hc
      · rwa [List.getLast?_append_of_ne_nil _ (List.append_ne_nil_of_right_ne_nil _ hjoin),
          List.getLast?_append_of_ne_nil _ hjoin]

theorem exists_strip_of_mem_heard {m : Marker} {texts : List Text} {t : Text}
    (h : t ∈ m.heard texts) : ∃ s, t = Text.strip s := by
  induction texts using Marker.heard.induct with
  | case1 => cases h
  | case2 s => exact ⟨s, List.mem_singleton.1 h⟩
  | case3 s u rest hblank ih =>
    rw [Marker.heard, if_pos hblank] at h
    exact (List.mem_cons.1 h).elim (fun heq => ⟨m.line u, heq⟩) ih
  | case4 s u rest htext ih =>
    rw [Marker.heard, if_neg htext] at h
    exact (List.mem_cons.1 h).elim (fun heq => ⟨s, heq⟩) ih

/-- The description of a block is what is heard of its texts, less what is empty. -/
theorem description_block (m : Marker) {texts : List Text}
    (hfeeds : ∀ t ∈ texts, ('\n' : CodePoint) ∉ t)
    (hnotes : ∀ t ∈ texts, ¬("(--" : Text) <:+: t) :
    description (m.block texts) = Text.join "\n" ((m.heard texts).filter (· ≠ [])) := by
  have hnone : ∀ t ∈ (m.heard texts).filter (· ≠ []), ¬("(--" : Text) <:+: t :=
    fun t ht => not_infix_heard m hnotes t (List.mem_filter.1 ht).1
  rw [description, comments_block m hfeeds, dropNotes_eq_self (not_infix_join hnone)]
  refine (trimmed_join fun t ht => ?_).trim_eq
  obtain ⟨hmem, hne⟩ := List.mem_filter.1 ht
  obtain ⟨s, rfl⟩ := exists_strip_of_mem_heard hmem
  exact ⟨of_decide_eq_true hne, Text.trimmed_trim s⟩

/-! ## Which blocks say their texts -/

/-- The number of code points that are no blanks. -/
def ink (t : Text) : Nat :=
  t.countP fun c => !c.isBlank

theorem ink_strip (t : Text) : ink (Text.strip t) = ink t := by
  have hdrop : ∀ s : Text, ink (s.dropWhile CodePoint.isBlank) = ink s := by
    intro s
    induction s with
    | nil => rfl
    | cons c s ih =>
      cases hc : c.isBlank with
      | true =>
        rw [List.dropWhile_cons_of_pos hc, ih, ink, ink, List.countP_cons_of_neg (by simp [hc])]
      | false => rw [List.dropWhile_cons_of_neg (by simp [hc])]
  have hreverse : ∀ s : Text, ink s.reverse = ink s := fun s => List.countP_reverse
  rw [Text.strip, Text.trim, Text.dropEndWhile, hreverse, hdrop, hreverse, hdrop]

theorem ink_append (s t : Text) : ink (s ++ t) = ink s + ink t :=
  List.countP_append

theorem ink_line (m : Marker) (t : Text) : ink t < ink (m.line t) := by
  have hmarker : 0 < ink m.text := by cases m <;> decide
  have hpadded : ink (padded t) = ink t := by
    rw [← ink_strip, strip_padded, ink_strip]
  have hline : ink (m.line t) = ink m.text + ink (padded t) := by
    rw [line_eq, ink_append]
  omega

/-- Line feeds and empty texts do not count. -/
theorem ink_join (texts : List Text) :
    ink (Text.join "\n" (texts.filter (· ≠ []))) = ink texts.flatten := by
  have hjoin : ∀ texts : List Text, ink (Text.join "\n" texts) = ink texts.flatten := by
    intro texts
    induction texts with
    | nil => rfl
    | cons t texts ih =>
      cases texts with
      | nil => simp [Text.join]
      | cons u texts =>
        have hfeed : ink "\n" = 0 := by decide
        have hcons : ink (t :: u :: texts).flatten = ink t + ink (u :: texts).flatten :=
          ink_append t _
        rw [Text.join_cons_cons, ink_append, ink_append, ih, hfeed, Nat.zero_add, hcons]
  rw [hjoin, List.flatten_filter_ne_nil]

theorem ink_flatten_strip (texts : List Text) :
    ink (texts.map Text.strip).flatten = ink texts.flatten := by
  induction texts with
  | nil => rfl
  | cons t texts ih =>
    rw [List.map_cons, List.flatten_cons, List.flatten_cons, ink_append, ink_append, ink_strip, ih]

/-- Nothing is missed of the texts. -/
theorem ink_le_heard (m : Marker) (texts : List Text) :
    ink texts.flatten ≤ ink (m.heard texts).flatten := by
  induction texts using Marker.heard.induct with
  | case1 => exact Nat.le_refl _
  | case2 t => simp [Marker.heard, ink_strip]
  | case3 t u rest hblank ih =>
    have ht : ink t = 0 := by
      rw [← ink_strip, hblank]
      rfl
    have hu := ink_line m u
    rw [Marker.heard, if_pos hblank]
    simp only [List.flatten_cons, ink_append, ink_strip]
    omega
  | case4 t u rest htext ih =>
    rw [Marker.heard, if_neg htext]
    simp only [List.flatten_cons, ink_append, ink_strip] at ih ⊢
    omega

/-- Behind a blank text a marker is heard that no text has. -/
theorem ink_lt_heard (m : Marker) {texts : List Text}
    (h : ∃ t ∈ texts.dropLast, Text.strip t = []) :
    ink texts.flatten < ink (m.heard texts).flatten := by
  induction texts using Marker.heard.induct with
  | case1 => simp at h
  | case2 t => simp at h
  | case3 t u rest hblank ih =>
    -- The marker of the next line is heard as text, and the blank text had nothing to lose.
    have ht : ink t = 0 := by
      rw [← ink_strip, hblank]
      rfl
    have hu := ink_line m u
    have hrest := ink_le_heard m rest
    rw [Marker.heard, if_pos hblank]
    simp only [List.flatten_cons, ink_append, ink_strip]
    omega
  | case4 t u rest htext ih =>
    obtain ⟨s, hs, hblank⟩ := h
    rw [List.dropLast_cons_cons] at hs
    have hrest := ih ⟨s, (List.mem_cons.1 hs).resolve_left fun heq => htext (heq ▸ hblank), hblank⟩
    rw [Marker.heard, if_neg htext]
    simp only [List.flatten_cons, ink_append, ink_strip] at hrest ⊢
    omega

theorem heard_eq_map (m : Marker) {texts : List Text}
    (h : ∀ t ∈ texts.dropLast, Text.strip t ≠ []) : m.heard texts = texts.map Text.strip := by
  induction texts using Marker.heard.induct with
  | case1 => rfl
  | case2 t => rfl
  | case3 t u rest hblank ih =>
    rw [List.dropLast_cons_cons] at h
    exact absurd hblank (h t List.mem_cons_self)
  | case4 t u rest htext ih =>
    rw [List.dropLast_cons_cons] at h
    rw [Marker.heard, if_neg htext, ih fun s hs => h s (List.mem_cons_of_mem _ hs)]
    rfl

/-- The description of a block of line comments is its texts, stripped and without the blank ones,
    exactly if no text but the last is blank. -/
theorem description_block_iff (m : Marker) {texts : List Text}
    (hfeeds : ∀ t ∈ texts, ('\n' : CodePoint) ∉ t)
    (hnotes : ∀ t ∈ texts, ¬("(--" : Text) <:+: t) :
    description (m.block texts) = Text.join "\n" ((texts.map Text.strip).filter (· ≠ [])) ↔
      ∀ t ∈ texts.dropLast, Text.strip t ≠ [] := by
  rw [description_block m hfeeds hnotes]
  constructor
  · intro h t ht hblank
    have hlt := ink_lt_heard m ⟨t, ht, hblank⟩
    have hink := congrArg ink h
    rw [ink_join, ink_join, ink_flatten_strip] at hink
    omega
  · intro h
    rw [heard_eq_map m h]

/-- A blank text at the end does no harm, and neither do marks inside a text. -/
theorem description_petBlock :
    (∀ t ∈ (["Adds a pet. ", "* See // and #1.", " "] : List Text),
      ('\n' : CodePoint) ∉ t ∧ ¬("(--" : Text) <:+: t) ∧
    description (Marker.slashes.block ["Adds a pet. ", "* See // and #1.", " "]) =
      "Adds a pet.\n* See // and #1." := by
  have htexts : ∀ t ∈ (["Adds a pet. ", "* See // and #1.", " "] : List Text),
      ('\n' : CodePoint) ∉ t ∧ ¬("(--" : Text) <:+: t := by decide +kernel
  refine ⟨htexts, ?_⟩
  exact (description_block_iff .slashes (fun t ht => (htexts t ht).1)
    fun t ht => (htexts t ht).2).2 (by decide)

/-- An empty line in the middle puts the marker of the next line into the description. -/
theorem leaked_emptyLine :
    (∀ t ∈ (["Adds a pet.", "", "Returns its number."] : List Text),
      ('\n' : CodePoint) ∉ t ∧ ¬("(--" : Text) <:+: t) ∧
    description (Marker.slashes.block ["Adds a pet.", "", "Returns its number."]) =
      "Adds a pet.\n// Returns its number." ∧
    Text.join "\n" ((["Adds a pet.", "", "Returns its number."].map Text.strip).filter (· ≠ [])) =
      "Adds a pet.\nReturns its number." := by
  have htexts : ∀ t ∈ (["Adds a pet.", "", "Returns its number."] : List Text),
      ('\n' : CodePoint) ∉ t ∧ ¬("(--" : Text) <:+: t := by decide +kernel
  refine ⟨htexts, ?_, by decide +kernel⟩
  rw [description_block .slashes (fun t ht => (htexts t ht).1) fun t ht => (htexts t ht).2]
  decide +kernel

end IdlBridge.Remark
