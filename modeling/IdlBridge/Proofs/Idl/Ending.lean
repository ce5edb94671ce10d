import IdlBridge.Idl.Lexer

/-! # The end of a source

    Whatever a text holds (unclosed literals and comments, characters that mean nothing), its
    tokens end with the one token that stands for the end of the source.  No lexeme is that token,
    so it can only come from closing the list.
-/

namespace IdlBridge.Idl

variable {κ : Type}

/-- The last token stands for the end of the source, and no other token does. -/
def Ended (ts : List (Token κ)) : Prop :=
  ∃ body eof, ts = body ++ [eof] ∧ eof.kind = .eof ∧ ∀ t ∈ body, t.kind ≠ .eof

namespace Lexicon

variable {lx : Lexicon}

/-- The lexeme is no token for the end of the source. -/
def IsInner (l : Lexeme κ) : Prop :=
  ∀ kind value, l.role = .token kind value → kind ≠ .eof

theorem isInner_lexeme [Keyword κ] (c : CodePoint) (rest : Text) :
    IsInner (lx.lexeme c rest : Lexeme κ) := by
  intro kind value hrole heof
  rw [heof] at hrole
  unfold lexeme at hrole
  split at hrole
  · cases hrole
  · split at hrole
    · cases hrole
    · split at hrole
      · cases hrole
      · split at hrole
        · cases hrole
        · split at hrole
          · cases hrole
          · split at hrole
            · -- A word is a keyword or a name.
              have hword := (Role.token.inj hrole).1
              unfold wordKind at hword
              split at hword <;> cases hword
            · cases hrole

theorem isInner_of_mem_lexemesFrom [Keyword κ] {skip : Nat} {t : Text} :
    ∀ l ∈ (lx.lexemesFrom skip t : List (Lexeme κ)), IsInner l := by
  fun_induction lexemesFrom lx (κ := κ) skip t with
  | case1 =>
    intro l hl
    cases hl
  | case2 skip c rest ih => exact ih
  | case3 c rest l ih =>
    intro l' hl'
    rcases List.mem_cons.1 hl' with rfl | hl'
    · exact isInner_lexeme c rest
    · exact ih l' hl'

/-- Placing lexemes closes the list of tokens once. -/
theorem ended_place {ls : List (Lexeme κ)} (hls : ∀ l ∈ ls, IsInner l)
    {last : Option (Token κ)} (hlast : ∀ t ∈ last, t.kind ≠ .eof) (waiting : List Text)
    (p : Position) : Ended (lx.place last waiting p ls) := by
  induction ls generalizing last waiting p with
  | nil =>
    refine ⟨last.toList, { kind := .eof, value := [], pos := p }, rfl, rfl, fun t ht => ?_⟩
    exact hlast t (Option.mem_toList.1 ht)
  | cons l rest ih =>
    obtain ⟨hl, hrest⟩ := List.forall_mem_cons.1 hls
    unfold place
    dsimp only
    split
    · exact ih hrest hlast waiting _
    · next kind value hrole =>
      -- The token before the lexeme is done, and the lexeme becomes the last token.
      let token : Token κ := { kind, value, pos := p, comment := Text.join "\n" waiting }
      have htoken : ∀ t ∈ some token, t.kind ≠ .eof := by
        intro t ht
        cases ht
        exact hl kind value hrole
      obtain ⟨body, eof, hts, heof, hbody⟩ := ih hrest htoken [] (lx.after p l)
      refine ⟨last.toList ++ body, eof, ?_, heof, fun t ht => ?_⟩
      · rw [hts, List.append_assoc]
      · rcases List.mem_append.1 ht with ht | ht
        · exact hlast t (Option.mem_toList.1 ht)
        · exact hbody t ht
    · split
      · next t =>
        split
        · refine ih hrest (fun t' ht' => ?_) [] _
          cases ht'
          exact hlast t rfl
        · exact ih hrest hlast _ _
      · exact ih hrest hlast _ _

/-- The tokens of every text end with the token for its end, and it is there only. -/
theorem ended_tokens [Keyword κ] (lx : Lexicon) (t : Text) :
    Ended (lx.tokens t : List (Token κ)) :=
  ended_place isInner_of_mem_lexemesFrom (fun _ h => by cases h) [] .start

end Lexicon

end IdlBridge.Idl
