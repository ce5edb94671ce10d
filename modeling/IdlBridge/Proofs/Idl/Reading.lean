import IdlBridge.Proofs.Idl.Lexing

/-! # Parsers on atoms

    A parser does not look at the places of tokens, so what it does is said on atoms:
    `Takes p us us' Q` says that in front of the atoms `us` the parser `p` succeeds with a result
    in `Q`, and that `us'` are the atoms it leaves.  There are rules for every parser of the library
    and one for sequencing.  For a loop there is the run of its rounds, `Loops`; its bound suffices
    since every round takes an atom.
-/

namespace IdlBridge.Idl

variable {κ : Type}

/-- The stream shows the atoms, and behind them its end.  No comment follows the token before
    them. -/
structure Stream.Shows (s : Stream κ) (us : List (Atom κ)) : Prop where
  ahead : List.Forall₂ Token.Is s.ahead us
  eof : s.eof.kind = .eof
  last : s.last.trailing = []

theorem length_le_flatMap {ι : Type} {atoms : ι → List (Atom κ)} {i : ι} {items : List ι}
    (h : i ∈ items) : (atoms i).length ≤ (items.flatMap atoms).length := by
  rw [List.flatMap_def]
  exact (List.sublist_flatten_of_mem (List.mem_map_of_mem h)).length_le

/-- The kind of the next atom. -/
def nextKind : List (Atom κ) → Kind κ
  | [] => .eof
  | u :: _ => u.kind

namespace Stream.Shows

variable {s : Stream κ} {u : Atom κ} {us : List (Atom κ)}

theorem length_eq (h : s.Shows us) : s.ahead.length = us.length :=
  h.ahead.length_eq

theorem next_kind (h : s.Shows us) : s.next.kind = nextKind us := by
  obtain ⟨ahead, eof, last⟩ := s
  cases h.ahead with
  | nil => exact h.eof
  | cons hu _ => exact hu.kind

theorem next (h : s.Shows (u :: us)) : s.next.Is u := by
  obtain ⟨ahead, eof, last⟩ := s
  cases h.ahead with
  | cons hu _ => exact hu

theorem advance (h : s.Shows (u :: us)) : s.advance.Shows us := by
  obtain ⟨ahead, eof, last⟩ := s
  cases h.ahead with
  | cons hu hus => exact ⟨hus, h.eof, hu.trailing⟩

/-- A stream starts with the atoms of its tokens. -/
theorem ofTokens {ts : List (Token κ)} {eof : Token κ} (hts : List.Forall₂ Token.Is ts us)
    (heof : eof.Is .eof) : (Stream.ofTokens (ts ++ [eof])).Shows us := by
  have hlast : (ts ++ [eof]).getLastD { kind := .eof, value := [], pos := .start } = eof := by
    rw [List.getLastD_eq_getLast?, List.getLast?_concat]
    rfl
  rw [Stream.ofTokens, hlast, List.dropLast_concat]
  exact ⟨hts, heof.kind, heof.trailing⟩

end Stream.Shows

namespace Parser

variable {α β σ ι : Type} {us us' us'' : List (Atom κ)}

/-- In front of the atoms `us` the parser succeeds with a result in `Q` and leaves `us'`. -/
def Takes (p : Parser κ α) (us us' : List (Atom κ)) (Q : α → Prop) : Prop :=
  ∀ s : Stream κ, s.Shows us → ∃ a s', p s = .ok (a, s') ∧ Q a ∧ s'.Shows us'

/-! ## Sequencing -/

theorem Takes.mono {p : Parser κ α} {P Q : α → Prop} (hp : Takes p us us' P)
    (hPQ : ∀ a, P a → Q a) : Takes p us us' Q := by
  intro s hs
  obtain ⟨a, s', hps, ha, hs'⟩ := hp s hs
  exact ⟨a, s', hps, hPQ a ha, hs'⟩

theorem takes_pure {a : α} {Q : α → Prop} (h : Q a) : Takes (pure a : Parser κ α) us us Q :=
  fun s hs => ⟨a, s, rfl, h, hs⟩

theorem Takes.bind {p : Parser κ α} {f : α → Parser κ β} {P : α → Prop} {Q : β → Prop}
    (hp : Takes p us us' P) (hf : ∀ a, P a → Takes (f a) us' us'' Q) :
    Takes (p >>= f) us us'' Q := by
  intro s hs
  obtain ⟨a, s', hps, ha, hs'⟩ := hp s hs
  obtain ⟨b, s'', hfs, hb, hs''⟩ := hf a ha s' hs'
  refine ⟨b, s'', ?_, hb, hs''⟩
  show (p s >>= fun r => f r.1 r.2) = _
  rw [hps]
  exact hfs

/-- Sequencing behind a parser whose result is known. -/
theorem Takes.bind_eq {p : Parser κ α} {f : α → Parser κ β} {a : α} {Q : β → Prop}
    (hp : Takes p us us' (· = a)) (hf : Takes (f a) us' us'' Q) : Takes (p >>= f) us us'' Q :=
  hp.bind fun _ ha => ha ▸ hf

/-- What a parser makes of all tokens of a source. -/
theorem parse_of_takes {p : Parser κ α} {a : α} (hp : Takes p us us' (· = a))
    {ts : List (Token κ)} {eof : Token κ} (hts : List.Forall₂ Token.Is ts us) (heof : eof.Is .eof) :
    parse p (ts ++ [eof]) = .ok a := by
  obtain ⟨_, s, hread, rfl, _⟩ := hp _ (.ofTokens hts heof)
  rw [parse, hread]
  rfl

/-! ## Tokens -/

theorem takes_peek {u : Atom κ} : Takes peek (u :: us) (u :: us) (·.Is u) :=
  fun s hs => ⟨s.next, s, rfl, hs.next, hs⟩

theorem takes_advance {u : Atom κ} : Takes advance (u :: us) us (·.Is u) :=
  fun s hs => ⟨s.next, s.advance, rfl, hs.next, hs.advance⟩

theorem takes_get : Takes (get : Parser κ (Stream κ)) us us (·.Shows us) :=
  fun s hs => ⟨s, s, rfl, hs, hs⟩

theorem isName_word [Keyword κ] (w : Text) : (Atom.word w : Atom κ).kind.isName = true := by
  show (Lexicon.wordKind w : Kind κ).isName = true
  unfold Lexicon.wordKind
  split <;> rfl

theorem kind_word_ne [Keyword κ] (w : Text) {k : Kind κ} (h : k.isName = false) :
    (Atom.word w : Atom κ).kind ≠ k := by
  rintro rfl
  rw [isName_word] at h
  cases h

theorem takes_name [Keyword κ] (w : Text) : Takes name (.word w :: us) us (· = w) := by
  refine Takes.bind (P := (·.Is (.word w))) ?_ fun t ht => takes_pure ht.value
  refine takes_peek.bind fun t ht => ?_
  rw [ht.kind, isName_word, if_pos rfl]
  exact takes_advance

theorem takes_intOf {t : Token κ} {i : Int} (h : Numeral.intLiteral? t.value = some i) :
    Takes (intOf t) us us (· = i) := by
  unfold intOf
  rw [h]
  exact takes_pure rfl

/-! ## Loops -/

/-- The rounds of a loop: each of them takes atoms. -/
inductive Loops (done : Parser κ Bool) (body : σ → Parser κ σ) :
    σ → List (Atom κ) → σ → List (Atom κ) → Prop
  | stop {a us} (hdone : Takes done us us (· = true)) : Loops done body a us a us
  | round {a b c us us' us''} (hdone : Takes done us us (· = false)) (hlt : us'.length < us.length)
      (hbody : Takes (body a) us us' (· = b)) (hrest : Loops done body b us' c us'') :
      Loops done body a us c us''

theorem Loops.rounds {done : Parser κ Bool} {body : σ → Parser κ σ} {a b : σ}
    (h : Loops done body a us b us') {bound : Nat} (hbound : us.length < bound) :
    Takes (rounds done body bound a) us us' (· = b) := by
  induction h generalizing bound with
  | stop hdone =>
    obtain ⟨bound, rfl⟩ := Nat.exists_eq_succ_of_ne_zero (Nat.ne_zero_of_lt hbound)
    exact hdone.bind_eq (takes_pure rfl)
  | round hdone hlt hbody _ ih =>
    obtain ⟨bound, rfl⟩ := Nat.exists_eq_succ_of_ne_zero (Nat.ne_zero_of_lt hbound)
    refine hdone.bind_eq ?_
    rw [if_neg Bool.false_ne_true]
    exact hbody.bind_eq (ih (by omega))

theorem Loops.repeatUntil {done : Parser κ Bool} {body : σ → Parser κ σ} {a b : σ}
    (h : Loops done body a us b us') : Takes (repeatUntil done a body) us us' (· = b) := by
  refine takes_get.bind fun s hs => ?_
  exact h.rounds (by rw [hs.length_eq]; omega)

/-- Rounds that take one item after the other; `state` is where the loop stands behind some. -/
theorem Loops.items {done : Parser κ Bool} {body : σ → Parser κ σ} {b : σ} {items : List ι}
    {atoms : ι → List (Atom κ)} (state : List ι → σ)
    (hround : ∀ before i after, items = before ++ i :: after →
      Takes done (atoms i ++ (after.flatMap atoms ++ us)) (atoms i ++ (after.flatMap atoms ++ us))
          (· = false) ∧ atoms i ≠ [] ∧
        Takes (body (state before)) (atoms i ++ (after.flatMap atoms ++ us))
          (after.flatMap atoms ++ us) (· = state (before ++ [i])))
    (hrest : Loops done body (state items) us b us') :
    Loops done body (state []) (items.flatMap atoms ++ us) b us' := by
  -- The items that are left follow the ones that have been taken.
  suffices h : ∀ left before, items = before ++ left →
      Loops done body (state before) (left.flatMap atoms ++ us) b us' from h items [] rfl
  intro left
  induction left with
  | nil =>
    intro before h
    rw [List.append_nil] at h
    exact h ▸ hrest
  | cons i left ih =>
    intro before h
    rw [List.flatMap_cons, List.append_assoc]
    obtain ⟨hdone, hne, hbody⟩ := hround before i left h
    refine .round hdone ?_ hbody (ih (before ++ [i]) (by rw [h, List.append_assoc]; rfl))
    have hpos := List.length_pos_iff.2 hne
    have hlength : (atoms i ++ (left.flatMap atoms ++ us)).length =
      (atoms i).length + (left.flatMap atoms ++ us).length := List.length_append
    omega

/-- Rounds that look at the next token before they take an item, which starts with a name. -/
theorem Loops.declarations [Keyword κ] {done : Parser κ Bool} {g : σ → Token κ → Parser κ σ} {b : σ}
    {items : List ι} {atoms : ι → List (Atom κ)} (state : List ι → σ)
    (hdone : ∀ vs : List (Atom κ), (nextKind vs).isName = true → Takes done vs vs (· = false))
    (hname : ∀ i ∈ items, (nextKind (atoms i)).isName = true)
    (hround : ∀ before i after, items = before ++ i :: after →
      ∀ t : Token κ, t.kind = nextKind (atoms i) →
        Takes (g (state before) t) (atoms i ++ (after.flatMap atoms ++ us))
          (after.flatMap atoms ++ us) (· = state (before ++ [i])))
    (hrest : Loops done (fun a => peek >>= g a) (state items) us b us') :
    Loops done (fun a => peek >>= g a) (state []) (items.flatMap atoms ++ us) b us' := by
  refine Loops.items state (fun before i after h => ?_) hrest
  have hi := hname i (by simp [h])
  have htakes := hround before i after h
  -- An item has atoms, as its first one is the name that the loop looks at.
  cases hatoms : atoms i with
  | nil =>
    rw [hatoms] at hi
    cases hi
  | cons u vs =>
    rw [hatoms] at hi htakes
    exact ⟨hdone _ hi, List.cons_ne_nil _ _, takes_peek.bind fun t ht => htakes t ht.kind⟩

/-! ## Kinds of tokens -/

variable [DecidableEq κ]

theorem takes_nextIs (k : Kind κ) : Takes (nextIs k) us us (· = decide (nextKind us = k)) :=
  fun s hs => ⟨_, s, rfl, by rw [hs.next_kind], hs⟩

theorem takes_accept {u : Atom κ} {k : Kind κ} (h : u.kind = k) :
    Takes (accept k) (u :: us) us (· = true) := by
  refine (takes_nextIs _).bind_eq ?_
  rw [nextKind, decide_eq_true h, if_pos rfl]
  exact takes_advance.bind fun _ _ => takes_pure rfl

theorem takes_accept_delimiter (d : Delimiter) :
    Takes (accept (.delimiter d)) (.mark d :: us) us (· = true) :=
  takes_accept rfl

theorem takes_accept_of_ne {k : Kind κ} (h : nextKind us ≠ k) :
    Takes (accept k) us us (· = false) := by
  refine (takes_nextIs _).bind_eq ?_
  rw [decide_eq_false h, if_neg Bool.false_ne_true]
  exact takes_pure rfl

theorem takes_expect {u : Atom κ} {k : Kind κ} (h : u.kind = k) :
    Takes (expect k) (u :: us) us (·.Is u) := by
  refine takes_peek.bind fun t ht => ?_
  rw [if_pos (ht.kind.trans h)]
  exact takes_advance

theorem takes_delimiter (d : Delimiter) : Takes (delimiter d) (.mark d :: us) us (· = ()) :=
  (takes_expect (u := .mark d) rfl).bind fun _ _ => takes_pure rfl

theorem takes_string (t : Text) : Takes string (.string t :: us) us (· = t) :=
  (takes_expect (u := .string t) rfl).bind fun _ ht => takes_pure ht.value

theorem takes_atEnd : Takes atEnd us us (· = decide (nextKind us = .eof)) :=
  takes_nextIs _

theorem takes_isAt {d : Delimiter} : Takes (isAt d) (.mark d :: us) (.mark d :: us) (· = true) := by
  refine takes_atEnd.bind_eq ?_
  rw [decide_eq_false (by simp [nextKind, Atom.mark]), if_neg Bool.false_ne_true]
  intro s hs
  exact ⟨_, s, rfl, by simp [hs.next_kind, nextKind, Atom.mark], hs⟩

theorem takes_isAt_of_ne {d : Delimiter} (hd : nextKind us ≠ .delimiter d)
    (heof : nextKind us ≠ .eof) : Takes (isAt d) us us (· = false) := by
  refine takes_atEnd.bind_eq ?_
  rw [decide_eq_false heof, if_neg Bool.false_ne_true]
  intro s hs
  exact ⟨_, s, rfl, by simp [hs.next_kind, hd], hs⟩

theorem takes_isAt_of_isName [Keyword κ] {d : Delimiter} (h : (nextKind us).isName = true) :
    Takes (isAt d) us us (· = false) := by
  refine takes_isAt_of_ne ?_ ?_
  · intro hd
    rw [hd] at h
    cases h
  · intro heof
    rw [heof] at h
    cases h

end Parser

end IdlBridge.Idl
