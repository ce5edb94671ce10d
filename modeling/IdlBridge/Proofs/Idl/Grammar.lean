import IdlBridge.Proofs.Idl.Reading

/-! # Grammars on atoms

    A grammar says which atoms spell a declaration: `W i us` for the declaration `i`.  Spellings
    leave choices open, so `W` is a relation.  `Each W items us` spells one item after the other.
    A loop reads them all if each of its rounds reads one, whatever may follow it; what follows an
    item is the start of the next one or the end of the loop, and it is told from the item by its
    kind.  `Balanced` and `Without` are what is skipped without being looked at.
-/

namespace IdlBridge.Idl

variable {κ ι σ : Type}

/-- The atoms spell the items one after the other. -/
inductive Each (W : ι → List (Atom κ) → Prop) : List ι → List (Atom κ) → Prop
  | nil : Each W [] []
  | cons {i : ι} {items : List ι} {u us : List (Atom κ)} (h : W i u) (hrest : Each W items us) :
    Each W (i :: items) (u ++ us)

namespace Each

variable {W : ι → List (Atom κ) → Prop} {items : List ι} {us : List (Atom κ)}

/-- Items that have a spelling each have one together. -/
theorem exists_each (h : ∀ i ∈ items, ∃ u, W i u) : ∃ us, Each W items us := by
  induction items with
  | nil => exact ⟨[], .nil⟩
  | cons i items ih =>
    obtain ⟨u, hu⟩ := h i List.mem_cons_self
    obtain ⟨us, hus⟩ := ih fun j hj => h j (List.mem_cons_of_mem i hj)
    exact ⟨u ++ us, .cons hu hus⟩

/-- No item is longer than all of them together. -/
theorem bounded (h : Each W items us) :
    Each (fun i u => W i u ∧ u.length ≤ us.length) items us := by
  suffices hle : ∀ n, us.length ≤ n → Each (fun i u => W i u ∧ u.length ≤ n) items us from
    hle us.length (Nat.le_refl _)
  intro n
  induction h with
  | nil => exact fun _ => .nil
  | cons h _ ih =>
    intro hn
    rw [List.length_append] at hn
    exact .cons ⟨h, by omega⟩ (ih (by omega))

/-- Items that carry their atoms with them. -/
theorem of_flatMap {atoms : ι → List (Atom κ)} (h : ∀ i ∈ items, W i (atoms i)) :
    Each W items (items.flatMap atoms) := by
  induction items with
  | nil => exact .nil
  | cons i items ih =>
    rw [List.flatMap_cons]
    have hrest := ih fun j hj => h j (List.mem_cons_of_mem i hj)
    exact .cons (h i List.mem_cons_self) hrest

theorem append {more : List ι} {vs : List (Atom κ)} (h : Each W items us) (hmore : Each W more vs) :
    Each W (items ++ more) (us ++ vs) := by
  induction h with
  | nil => exact hmore
  | cons hi _ ih =>
    rw [List.cons_append, List.append_assoc]
    exact .cons hi ih

/-- Items of one kind among others. -/
theorem of_map {α : Type} {item : α → ι} {atoms : α → List (Atom κ)} {xs : List α}
    (h : ∀ x ∈ xs, W (item x) (atoms x)) : Each W (xs.map item) (xs.flatMap atoms) := by
  induction xs with
  | nil => exact .nil
  | cons x xs ih =>
    rw [List.map_cons, List.flatMap_cons]
    exact .cons (h x List.mem_cons_self) (ih fun y hy => h y (List.mem_cons_of_mem x hy))

end Each

/-- Parts of one kind fill up one list of what they are added to. -/
theorem foldl_map_eq {α : Type} (add : σ → ι → σ) (part : α → ι) (append : σ → List α → σ)
    (hnil : ∀ s, append s [] = s)
    (hstep : ∀ s xs x, add (append s xs) (part x) = append s (xs ++ [x])) (xs : List α) (s : σ) :
    (xs.map part).foldl add s = append s xs := by
  suffices hleft : ∀ left before,
      (left.map part).foldl add (append s before) = append s (before ++ left) by
    have hall := hleft xs []
    rwa [hnil] at hall
  intro left
  induction left with
  | nil =>
    intro before
    rw [List.append_nil]
    rfl
  | cons x left ih =>
    intro before
    rw [List.map_cons, List.foldl_cons, hstep, ih, List.append_assoc]
    rfl

theorem nextKind_append {us : List (Atom κ)} (h : nextKind us ≠ .eof) (vs : List (Atom κ)) :
    nextKind (us ++ vs) = nextKind us := by
  cases us with
  | nil => exact absurd rfl h
  | cons u us => rfl

@[simp] theorem nextKind_cons (u : Atom κ) (us : List (Atom κ)) : nextKind (u :: us) = u.kind := rfl

theorem Kind.eq_of_isName {k : Kind κ} (h : k.isName = true) :
    k = .ident ∨ ∃ w, k = .keyword w := by
  cases k with
  | ident => exact Or.inl rfl
  | keyword w => exact Or.inr ⟨w, rfl⟩
  | _ => cases h

namespace Atom

@[simp] theorem kind_mark (d : Delimiter) : (mark d : Atom κ).kind = .delimiter d := rfl

@[simp] theorem kind_keyword [Keyword κ] (k : κ) : (keyword k : Atom κ).kind = .keyword k := rfl

@[simp] theorem kind_string (t : Text) : (string t : Atom κ).kind = .string := rfl

@[simp] theorem kind_number (t : Text) : (number t : Atom κ).kind = .number := rfl

/-- An atom as a token, wherever it may stand. -/
def token (u : Atom κ) : Token κ := { kind := u.kind, value := u.value, pos := .start }

theorem forall₂_token (us : List (Atom κ)) : List.Forall₂ Token.Is (us.map token) us := by
  induction us with
  | nil => exact .nil
  | cons u us ih => exact .cons ⟨rfl, rfl, rfl, rfl⟩ ih

end Atom

/-- A separator that may be left out. -/
inductive Separator : List (Atom κ) → Prop
  | none : Separator []
  | comma : Separator [.mark .comma]
  | semicolon : Separator [.mark .semicolon]

theorem Separator.next {P : Kind κ → Prop} {us rest : List (Atom κ)} (h : Separator us)
    (hcomma : P (.delimiter .comma)) (hsemicolon : P (.delimiter .semicolon))
    (hrest : P (nextKind rest)) : P (nextKind (us ++ rest)) := by
  cases h with
  | none => exact hrest
  | comma => exact hcomma
  | semicolon => exact hsemicolon

/-! ## Skipped atoms -/

/-- Atoms whose braces are balanced. -/
inductive Balanced : List (Atom κ) → Prop
  | nil : Balanced []
  | cons {u : Atom κ} {us : List (Atom κ)} (heof : u.kind ≠ .eof)
      (hleft : u.kind ≠ .delimiter .leftBrace) (hright : u.kind ≠ .delimiter .rightBrace)
      (h : Balanced us) : Balanced (u :: us)
  | block {us vs : List (Atom κ)} (hus : Balanced us) (hvs : Balanced vs) :
    Balanced (.mark .leftBrace :: (us ++ .mark .rightBrace :: vs))

/-- Atoms without a delimiter. -/
def Without (d : Delimiter) (us : List (Atom κ)) : Prop :=
  ∀ u ∈ us, u.kind ≠ .delimiter d ∧ u.kind ≠ .eof

namespace Parser

variable {rest us vs : List (Atom κ)}

theorem takes_peek_kind : Takes peek us us (·.kind = nextKind us) :=
  fun s hs => ⟨s.next, s, rfl, hs.next_kind, hs⟩

/-- The next token has no comments. -/
theorem takes_peek_of_ne (h : nextKind us ≠ .eof) :
    Takes peek us us fun t => t.kind = nextKind us ∧ t.comment = [] := by
  cases us with
  | nil => exact absurd rfl h
  | cons u us =>
    apply takes_peek.mono
    intro t ht
    exact ⟨ht.kind, ht.comment⟩

/-- What is said of the next atom, if there is one, holds of the next token. -/
theorem takes_peek_of_head {P : Kind κ → Text → Prop} (h : ∀ u ∈ us.head?, P u.kind u.value)
    (heof : ∀ t, P .eof t) : Takes peek us us fun t => P t.kind t.value := by
  cases us with
  | nil =>
    apply takes_peek_kind.mono
    intro t ht
    rw [ht]
    exact heof t.value
  | cons u us =>
    apply takes_peek.mono
    intro t ht
    rw [ht.kind, ht.value]
    exact h u rfl

/-- A choice that stands behind the binding of what comes after it. -/
theorem takes_if_pos {α : Type} {c : Prop} [Decidable c] (hc : c) {p q : Parser κ α} {Q : α → Prop}
    (hp : Takes p us vs Q) : Takes (if c then p else q) us vs Q := by
  rw [if_pos hc]
  exact hp

theorem takes_if_neg {α : Type} {c : Prop} [Decidable c] (hc : ¬c) {p q : Parser κ α} {Q : α → Prop}
    (hq : Takes q us vs Q) : Takes (if c then p else q) us vs Q := by
  rw [if_neg hc]
  exact hq

/-! ## Loops -/

/-- The rounds of a loop over items.  Each item leads from what the loop does behind it to what
    the loop does in front of it; `F` is what follows an item. -/
theorem Loops.each {done : Parser κ Bool} {body : σ → Parser κ σ} {W : ι → List (Atom κ) → Prop}
    {F : Kind κ → Prop} {items : List ι} {b : σ} (h : Each W items us) (state : List ι → σ)
    (hitem : ∀ before i after, items = before ++ i :: after → ∀ u rest, W i u → F (nextKind rest) →
      Loops done body (state (before ++ [i])) rest b vs →
      F (nextKind (u ++ rest)) ∧ Loops done body (state before) (u ++ rest) b vs)
    (hrest : F (nextKind rest)) (hloop : Loops done body (state items) rest b vs) :
    Loops done body (state []) (us ++ rest) b vs := by
  -- The items that are left follow the ones that have been read.
  suffices hleft : ∀ left us, Each W left us → ∀ before, items = before ++ left →
      F (nextKind (us ++ rest)) ∧ Loops done body (state before) (us ++ rest) b vs from
    (hleft items us h [] rfl).2
  intro left us h
  induction h with
  | nil =>
    intro before hitems
    rw [List.append_nil] at hitems
    subst hitems
    exact ⟨hrest, hloop⟩
  | @cons i left u us hi _ ih =>
    intro before hitems
    have hnext : before ++ i :: left = (before ++ [i]) ++ left := by
      rw [List.append_assoc]
      rfl
    obtain ⟨hF, hloop⟩ := ih (before ++ [i]) (hitems.trans hnext)
    rw [List.append_assoc]
    exact hitem before i left hitems u _ hi hF hloop

/-- An item that one round reads.  `S` is what it starts with. -/
theorem Loops.round_of_starts {done : Parser κ Bool} {body : σ → Parser κ σ} {S : Kind κ → Prop}
    {a b c : σ} (hdone : ∀ us : List (Atom κ), S (nextKind us) → Takes done us us (· = false))
    (heof : ¬S .eof) (hstart : S (nextKind us))
    (hbody : Takes (body a) (us ++ rest) rest (· = b)) (hrest : Loops done body b rest c vs) :
    Loops done body a (us ++ rest) c vs := by
  have hne : nextKind us ≠ .eof := by
    intro hkind
    rw [hkind] at hstart
    exact heof hstart
  have hpos : 0 < us.length := by
    apply List.length_pos_iff.2
    intro hnil
    rw [hnil] at hne
    exact hne rfl
  refine .round (hdone _ ?_) ?_ hbody hrest
  · rw [nextKind_append hne]
    exact hstart
  · rw [List.length_append]
    omega

variable [DecidableEq κ]

/-- A loop over items up to a delimiter. -/
theorem takes_each {body : σ → Parser κ σ} {W : ι → List (Atom κ) → Prop} {d : Delimiter}
    {F : Kind κ → Prop} {items : List ι} (h : Each W items us) (state : List ι → σ)
    (hstart : ∀ i u, W i u →
      F (nextKind u) ∧ nextKind u ≠ .delimiter d ∧ nextKind u ≠ .eof)
    (hend : F (.delimiter d))
    (hround : ∀ before i after, items = before ++ i :: after → ∀ u vs, W i u → F (nextKind vs) →
      Takes (body (state before)) (u ++ vs) vs (· = state (before ++ [i]))) :
    Takes (repeatUntil (isAt d) (state []) body) (us ++ .mark d :: rest) (.mark d :: rest)
      (· = state items) := by
  apply Loops.repeatUntil
  apply Loops.each (F := F) h state
  · intro before i after hitems u vs hu hvs hloop
    have hS := hstart i u hu
    constructor
    · rw [nextKind_append hS.2.2]
      exact hS.1
    · -- An item starts with neither the delimiter nor the end, so the loop does not stop there.
      apply Loops.round_of_starts (S := fun k => k ≠ .delimiter d ∧ k ≠ .eof) ?_ ?_ hS.2
        (hround before i after hitems u vs hu hvs) hloop
      · intro us hus
        exact takes_isAt_of_ne hus.1 hus.2
      · intro heof
        exact heof.2 rfl
  · exact hend
  · exact .stop takes_isAt

theorem takes_atEnd_of_ne (h : nextKind us ≠ .eof) : Takes atEnd us us (· = false) := by
  have hatEnd : Takes atEnd us us _ := takes_atEnd
  rwa [decide_eq_false h] at hatEnd

/-- A loop over items up to the end of the source. -/
theorem takes_each_atEnd {body : σ → Parser κ σ} {W : ι → List (Atom κ) → Prop}
    {F : Kind κ → Prop} {items : List ι} (h : Each W items us) (state : List ι → σ)
    (hstart : ∀ i u, W i u → F (nextKind u) ∧ nextKind u ≠ .eof) (hend : F .eof)
    (hround : ∀ before i after, items = before ++ i :: after → ∀ u vs, W i u → F (nextKind vs) →
      Takes (body (state before)) (u ++ vs) vs (· = state (before ++ [i]))) :
    Takes (repeatUntil atEnd (state []) body) us [] (· = state items) := by
  rw [← List.append_nil us]
  apply Loops.repeatUntil
  apply Loops.each (F := F) h state
  · intro before i after hitems u vs hu hvs hloop
    have hS := hstart i u hu
    constructor
    · rw [nextKind_append hS.2]
      exact hS.1
    · apply Loops.round_of_starts (S := (· ≠ .eof)) ?_ ?_ hS.2
        (hround before i after hitems u vs hu hvs) hloop
      · intro us hus
        exact takes_atEnd_of_ne hus
      · intro heof
        exact heof rfl
  · exact hend
  · exact .stop takes_atEnd

/-! ## Skipping -/

/-- The tokens in front of a delimiter are dropped up to it. -/
theorem dropWhile_of_without {d : Delimiter} (hus : Without d us) {ts : List (Token κ)}
    (hts : List.Forall₂ Token.Is ts (us ++ .mark d :: vs)) :
    List.Forall₂ Token.Is (ts.dropWhile fun t => t.kind != .delimiter d) (.mark d :: vs) := by
  induction us generalizing ts with
  | nil =>
    cases hts with
    | cons ht hrest =>
      rw [List.dropWhile_cons_of_neg (by simp [ht.kind])]
      exact .cons ht hrest
  | cons u us ih =>
    cases hts with
    | cons ht hrest =>
      obtain ⟨hu, hus⟩ := List.forall_mem_cons.1 hus
      rw [List.dropWhile_cons_of_pos (by simp [ht.kind, hu.1])]
      exact ih hus hrest

/-- Balanced atoms are dropped as a whole. -/
theorem dropBraces_of_balanced (hus : Balanced us) (depth : Nat) {ts : List (Token κ)}
    (hts : List.Forall₂ Token.Is ts (us ++ vs)) :
    ∃ ts', List.Forall₂ Token.Is ts' vs ∧
      dropBraces (depth + 1) ts = dropBraces (depth + 1) ts' := by
  induction hus generalizing depth ts vs with
  | nil => exact ⟨ts, hts, rfl⟩
  | cons _ hleft hright _ ih =>
    cases hts with
    | cons ht hrest =>
      obtain ⟨ts', hts', heq⟩ := ih depth hrest
      refine ⟨ts', hts', ?_⟩
      rw [dropBraces, if_neg (ht.kind ▸ hleft), if_neg (ht.kind ▸ hright), heq]
  | block _ _ ihus ihvs =>
    rw [List.cons_append, List.append_assoc] at hts
    cases hts with
    | cons ht hrest =>
      -- The inner atoms stand one brace deeper, and the closing brace leads back to the depth.
      obtain ⟨ts₁, hts₁, heq₁⟩ := ihus (depth + 1) hrest
      cases hts₁ with
      | cons ht₁ hrest₁ =>
        obtain ⟨ts₂, hts₂, heq₂⟩ := ihvs depth hrest₁
        refine ⟨ts₂, hts₂, ?_⟩
        have hopen := ht.kind
        have hclose := ht₁.kind
        rw [Atom.kind_mark] at hopen hclose
        rw [dropBraces, if_pos hopen, heq₁, dropBraces, if_neg (by simp [hclose]), if_pos hclose,
          heq₂]

/-- A block is skipped from its keyword to its closing brace. -/
theorem takes_skipBlock {u : Atom κ} (hheader : Without .leftBrace us) (hbody : Balanced vs) :
    Takes skipBlock (u :: (us ++ .mark .leftBrace :: (vs ++ .mark .rightBrace :: rest))) rest
      (· = ()) := by
  intro s hs
  obtain ⟨ahead, eof, last⟩ := s
  obtain ⟨hahead, heof, hlast⟩ := hs
  cases hahead with
  | @cons t _ ts _ _ hts =>
    have hbehind := dropWhile_of_without hheader hts
    cases hopen : ts.dropWhile fun t => t.kind != .delimiter .leftBrace with
    | nil =>
      rw [hopen] at hbehind
      cases hbehind
    | cons brace behind =>
      rw [hopen] at hbehind
      cases hbehind with
      | cons _ hbehind =>
        -- Behind the first brace the depth is one, and the brace that ends the body ends the block.
        obtain ⟨ts', hts', heq⟩ := dropBraces_of_balanced hbody 0 hbehind
        cases hts' with
        | @cons close _ left _ hclose hleft =>
          have hkind := hclose.kind
          rw [Atom.kind_mark] at hkind
          refine ⟨(), ⟨left, eof, last⟩, ?_, rfl, hleft, heof, hlast⟩
          have hdropped : dropBraces 1
              (((t :: ts).drop 1).dropWhile fun t => t.kind != .delimiter .leftBrace).tail =
                left := by
            show dropBraces 1 (ts.dropWhile fun t => t.kind != .delimiter .leftBrace).tail = left
            rw [hopen, List.tail_cons, heq, dropBraces, if_neg (by simp [hkind]), if_pos hkind,
              dropBraces]
          rw [← hdropped, ← List.drop_one]
          rfl

end Parser

end IdlBridge.Idl
