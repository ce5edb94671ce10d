import IdlBridge.Proofs.Idl.Lexing
import Mathlib.Data.List.TakeWhile

/-! # Pieces of text and their atoms

    A text *spells* atoms if it adds them to whatever follows it.  A word does so only in front
    of a break, and so does everything that ends with a word; with a delimiter or a blank behind
    it, it spells its atoms in front of anything.  Texts that spell atoms are put together like
    their atoms.
-/

namespace IdlBridge.Idl.Lexicon

variable {κ : Type} [Keyword κ] {lx : Lexicon} {s t : Text} {us vs : List (Atom κ)}

/-- In front of anything the text adds the atoms. -/
def Spells (lx : Lexicon) (t : Text) (us : List (Atom κ)) : Prop :=
  ∀ rest vs, lx.Lexes rest vs → lx.Lexes (t ++ rest) (us ++ vs)

/-- In front of a break the text adds the atoms. -/
def SpellsBroken (lx : Lexicon) (t : Text) (us : List (Atom κ)) : Prop :=
  ∀ rest vs, Breaks rest → lx.Lexes rest vs → lx.Lexes (t ++ rest) (us ++ vs)

theorem Spells.broken (h : lx.Spells t us) : lx.SpellsBroken t us :=
  fun rest vs _ => h rest vs

theorem Spells.lexes (h : lx.Spells t us) : lx.Lexes t us := by
  have := h [] [] lexes_nil
  rwa [List.append_nil, List.append_nil] at this

theorem spells_nil : lx.Spells [] ([] : List (Atom κ)) :=
  fun _ _ h => h

theorem Spells.append (h : lx.Spells s us) (h' : lx.Spells t vs) :
    lx.Spells (s ++ t) (us ++ vs) := by
  intro rest ws hrest
  rw [List.append_assoc, List.append_assoc]
  exact h _ _ (h' _ _ hrest)

theorem Spells.append_broken (h : lx.Spells s us) (h' : lx.SpellsBroken t vs) :
    lx.SpellsBroken (s ++ t) (us ++ vs) := by
  intro rest ws hbreaks hrest
  rw [List.append_assoc, List.append_assoc]
  exact h _ _ (h' _ _ hbreaks hrest)

theorem spells_flatMap {α : Type} {xs : List α} {text : α → Text} {atoms : α → List (Atom κ)}
    (h : ∀ x ∈ xs, lx.Spells (text x) (atoms x)) :
    lx.Spells (xs.flatMap text) (xs.flatMap atoms) := by
  induction xs with
  | nil => exact spells_nil
  | cons x xs ih =>
    exact (h x List.mem_cons_self).append (ih fun y hy => h y (List.mem_cons_of_mem _ hy))

/-! ## Marks -/

/-- The atoms of delimiters. -/
def markAtoms (ds : List Delimiter) : List (Atom κ) := ds.map Atom.mark

theorem spells_marks {p : Text} {ds : List Delimiter} (h : marks? p = some ds) :
    lx.Spells p (markAtoms ds : List (Atom κ)) :=
  fun _ _ hrest => hrest.marks h

/-- A text of delimiters and blanks breaks a word. -/
theorem breaks_of_marks? {p : Text} {ds : List Delimiter} (h : marks? p = some ds) (hne : p ≠ [])
    (rest : Text) : Breaks (p ++ rest) := by
  have hrow : ∀ e ∈ Delimiter.table, isNamePart e.2.1 = false := by decide
  cases p with
  | nil => exact absurd rfl hne
  | cons c p =>
    intro d hd
    obtain rfl : c = d := Option.some.inj hd
    rw [marks?] at h
    split at h
    · next d hd =>
      obtain ⟨e, he, rfl⟩ := Option.map_eq_some_iff.1 hd
      have hc := List.find?_some he
      rw [decide_eq_true_eq] at hc
      exact hc ▸ hrow e (List.mem_of_find?_eq_some he)
    · split at h
      · next hblank => rcases hblank with rfl | rfl <;> decide
      · cases h

theorem SpellsBroken.marks (h : lx.SpellsBroken t us) {p : Text} {ds : List Delimiter}
    (hp : marks? p = some ds) (hne : p ≠ []) : lx.Spells (t ++ p) (us ++ markAtoms ds) := by
  intro rest vs hrest
  rw [List.append_assoc, List.append_assoc]
  exact h _ _ (breaks_of_marks? hp hne rest) (hrest.marks hp)

theorem spellsBroken_word {w : Text} (h : isWord w = true) :
    lx.SpellsBroken w ([.word w] : List (Atom κ)) :=
  fun _ _ hbreaks hrest => hrest.word h hbreaks

theorem spellsBroken_int (i : Int) : lx.SpellsBroken (Text.ofInt i) ([.int i] : List (Atom κ)) :=
  fun _ _ hbreaks hrest => hrest.int i hbreaks

/-- Parts with delimiters or blanks between them. -/
theorem spellsBroken_join {p : Text} {ds : List Delimiter} (hp : marks? p = some ds) (hne : p ≠ [])
    {α : Type} {xs : List α} {text : α → Text} {atoms : α → List (Atom κ)}
    (h : ∀ x ∈ xs, lx.SpellsBroken (text x) (atoms x)) :
    lx.SpellsBroken (Text.join p (xs.map text)) ((markAtoms ds).intercalate (xs.map atoms)) := by
  induction xs with
  | nil => exact spells_nil.broken
  | cons x xs ih =>
    have hx := h x List.mem_cons_self
    have hxs := ih fun y hy => h y (List.mem_cons_of_mem _ hy)
    cases xs with
    | nil => simpa [Text.join, List.intercalate] using hx
    | cons y xs =>
      have := (hx.marks hp hne).append_broken hxs
      simpa [Text.join, List.intercalate] using this

/-! ## The end of a text -/

/-- The text and what is left of it without the line feeds at its end spell the same atoms. -/
structure SpellsTrimmed (lx : Lexicon) (t : Text) (us : List (Atom κ)) : Prop where
  spells : lx.Spells t us
  trimmed : lx.Spells (Text.dropEndWhile (· == ('\n' : CodePoint)) t) us

theorem spellsTrimmed_nil : lx.SpellsTrimmed [] ([] : List (Atom κ)) :=
  ⟨spells_nil, spells_nil⟩

theorem dropEndWhile_append (p : CodePoint → Bool) (s t : Text) :
    Text.dropEndWhile p (s ++ t) =
      if Text.dropEndWhile p t = [] then Text.dropEndWhile p s else s ++ Text.dropEndWhile p t := by
  unfold Text.dropEndWhile
  rw [List.reverse_append, List.dropWhile_append]
  simp only [List.isEmpty_iff, List.reverse_eq_nil_iff]
  split
  · rfl
  · rw [List.reverse_append, List.reverse_reverse]

theorem SpellsTrimmed.append (h : lx.SpellsTrimmed s us) (h' : lx.SpellsTrimmed t vs) :
    lx.SpellsTrimmed (s ++ t) (us ++ vs) := by
  refine ⟨h.spells.append h'.spells, ?_⟩
  rw [dropEndWhile_append]
  split
  · next hnil =>
    -- A text of line feeds has no atoms.
    have hlexes := h'.trimmed.lexes
    rw [hnil] at hlexes
    obtain rfl : [] = vs := Option.some.inj hlexes
    rw [List.append_nil]
    exact h.trimmed
  · exact h.spells.append h'.trimmed

theorem spellsTrimmed_flatMap {α : Type} {xs : List α} {text : α → Text} {atoms : α → List (Atom κ)}
    (h : ∀ x ∈ xs, lx.SpellsTrimmed (text x) (atoms x)) :
    lx.SpellsTrimmed (xs.flatMap text) (xs.flatMap atoms) := by
  induction xs with
  | nil => exact spellsTrimmed_nil
  | cons x xs ih =>
    exact (h x List.mem_cons_self).append (ih fun y hy => h y (List.mem_cons_of_mem _ hy))

/-- Blanks are no marks. -/
theorem marks?_blanks {t : Text} (h : ∀ c ∈ t, c = ' ' ∨ c = '\n') : marks? t = some [] := by
  induction t with
  | nil => rfl
  | cons c t ih =>
    have hc := h c List.mem_cons_self
    have hmark : Delimiter.ofCodePoint? c = none := by
      rcases hc with rfl | rfl <;> decide
    rw [marks?, hmark]
    simp only [hc, if_true]
    exact ih fun d hd => h d (List.mem_cons_of_mem _ hd)

theorem spellsTrimmed_feeds {feeds : Text} (h : ∀ d ∈ feeds, d = '\n') :
    lx.SpellsTrimmed feeds ([] : List (Atom κ)) := by
  have hnil : Text.dropEndWhile (· == ('\n' : CodePoint)) feeds = [] := by
    rw [Text.dropEndWhile, List.reverse_eq_nil_iff, List.dropWhile_eq_nil_iff]
    exact fun d hd => by simp [h d (List.mem_reverse.1 hd)]
  refine ⟨spells_marks (marks?_blanks fun d hd => Or.inr (h d hd)), ?_⟩
  rw [hnil]
  exact spells_nil

/-- Line feeds behind a text that ends with something else. -/
theorem Spells.trimmed {c : CodePoint} (h : lx.Spells (s ++ [c]) us) (hc : c ≠ '\n') {feeds : Text}
    (hfeeds : ∀ d ∈ feeds, d = '\n') : lx.SpellsTrimmed (s ++ [c] ++ feeds) us := by
  have hself : Text.dropEndWhile (· == ('\n' : CodePoint)) (s ++ [c]) = s ++ [c] := by
    rw [Text.dropEndWhile, List.reverse_concat, List.dropWhile_cons_of_neg (by simpa using hc),
      List.reverse_cons, List.reverse_reverse]
  have hend : lx.SpellsTrimmed (s ++ [c]) us := ⟨h, by rwa [hself]⟩
  have := hend.append (spellsTrimmed_feeds hfeeds)
  rwa [List.append_nil] at this

end IdlBridge.Idl.Lexicon
