import IdlBridge.Idl.Parser
import IdlBridge.Proofs.Idl.Ending

/-! # How far parsers get

    The streams of a run are the ends of one list of tokens, so a run is followed by the position of
    the next token in it.  `Proceeds ts n p Q` says that the parser `p`, started in front of the
    token at position `n`, comes to an end: with a result at a position that is not before `n` and
    where `Q` holds, or at a token of the list that the language complains about.  The complaint
    `unfinished` is not one of the language; it never comes up, since every round of a loop
    consumes a token and the bounds count the tokens ahead.
-/

namespace IdlBridge.Idl

variable {κ : Type} {ts : List (Token κ)}

/-- The stream stands in front of the token at position `n`.  The list goes on behind the last
    token that the stream can show, so a position never lies behind the end. -/
def Stream.At (ts : List (Token κ)) (n : Nat) (s : Stream κ) : Prop :=
  s.ahead ++ [s.eof] = ts.drop n

namespace Stream.At

variable {n : Nat} {s : Stream κ}

theorem length_ahead (h : s.At ts n) : n + (s.ahead.length + 1) = ts.length := by
  have hlength : s.ahead.length + 1 = ts.length - n := by
    have := congrArg List.length h
    rwa [List.length_append, List.length_drop] at this
  omega

theorem getElem?_next (h : s.At ts n) : ts[n]? = some s.next := by
  have hhead : ts[n]? = (s.ahead ++ [s.eof])[0]? := by
    rw [h, List.getElem?_drop, Nat.add_zero]
  rw [hhead]
  unfold Stream.next
  cases s.ahead with
  | nil => rfl
  | cons t rest => rfl

/-- A stream that shows only some of the last tokens stands further on. -/
theorem of_suffix (h : s.At ts n) {ahead : List (Token κ)} (hsuffix : ahead <:+ s.ahead)
    (last : Token κ) :
    Stream.At ts (n + (s.ahead.length - ahead.length)) ⟨ahead, s.eof, last⟩ := by
  obtain ⟨dropped, hdropped⟩ := hsuffix
  have hlength : s.ahead.length - ahead.length = dropped.length := by
    rw [← hdropped, List.length_append]
    omega
  unfold Stream.At at h ⊢
  rw [hlength, ← List.drop_drop, ← h, ← hdropped, List.append_assoc, List.drop_left]

/-- Only the token for the end is not followed by another one. -/
theorem ahead_ne_nil (hts : Ended ts) (h : s.At ts n) (hnext : s.next.kind ≠ .eof) :
    s.ahead ≠ [] := by
  intro hnil
  have heof : s.next = s.eof := by
    unfold Stream.next
    rw [hnil]
    rfl
  obtain ⟨body, eof, rfl, hkind, -⟩ := hts
  have hlast : (body ++ [eof]).getLast? = some s.eof := by
    have hlength := h.length_ahead
    have hdrop : (body ++ [eof]).drop n = [s.eof] := by
      rw [← h, hnil]
      rfl
    rw [← List.take_append_drop n (body ++ [eof]), hdrop, List.getLast?_concat]
  rw [List.getLast?_concat] at hlast
  cases hlast
  exact hnext (heof ▸ hkind)

theorem exists_ahead (hts : Ended ts) (h : s.At ts n) {t : Token κ} (ht : ts[n]? = some t)
    (hkind : t.kind ≠ .eof) : ∃ rest, s.ahead = t :: rest := by
  have hnext : s.next = t := Option.some.inj (h.getElem?_next.symm.trans ht)
  obtain ⟨u, rest, hahead⟩ := List.exists_cons_of_ne_nil (h.ahead_ne_nil hts (hnext ▸ hkind))
  refine ⟨rest, ?_⟩
  rw [← hnext]
  unfold Stream.next
  rw [hahead]
  rfl

end Stream.At

namespace Parser

variable {α β σ : Type} {n : Nat}

/-- Started in front of the token at position `n`, the parser ends with a result at a position that
    is not before `n` and where `Q` holds, or it stops at a token with a complaint of the
    language. -/
def Proceeds (ts : List (Token κ)) (n : Nat) (p : Parser κ α) (Q : α → Nat → Prop) : Prop :=
  ∀ s : Stream κ, s.At ts n →
    (∃ a s' m, p s = .ok (a, s') ∧ n ≤ m ∧ s'.At ts m ∧ Q a m) ∨
    (∃ e, p s = .error e ∧ e.complaint ≠ .unfinished ∧ e.token ∈ ts)

/-- There is no stream to start with behind the last token. -/
theorem proceeds_of_lt {p : Parser κ α} {Q : α → Nat → Prop}
    (h : n < ts.length → Proceeds ts n p Q) : Proceeds ts n p Q := by
  intro s hs
  have hlength := hs.length_ahead
  exact h (by omega) s hs

/-! ## Sequencing -/

theorem Proceeds.mono {p : Parser κ α} {P Q : α → Nat → Prop} (hp : Proceeds ts n p P)
    (hPQ : ∀ a m, n ≤ m → P a m → Q a m) : Proceeds ts n p Q := by
  intro s hs
  obtain ⟨a, s', m, hps, hm, hs', ha⟩ | hstop := hp s hs
  · exact Or.inl ⟨a, s', m, hps, hm, hs', hPQ a m hm ha⟩
  · exact Or.inr hstop

/-- A parser that proceeds stays in front of a token of the list. -/
theorem Proceeds.lt_length {p : Parser κ α} {Q : α → Nat → Prop} (h : Proceeds ts n p Q) :
    Proceeds ts n p fun _ m => m < ts.length := by
  intro s hs
  obtain ⟨a, s', m, hps, hm, hs', -⟩ | hstop := h s hs
  · have hlength := hs'.length_ahead
    exact Or.inl ⟨a, s', m, hps, hm, hs', by omega⟩
  · exact Or.inr hstop

theorem proceeds_pure {a : α} {Q : α → Nat → Prop} (h : Q a n) :
    Proceeds ts n (pure a : Parser κ α) Q := by
  intro s hs
  exact Or.inl ⟨a, s, n, rfl, Nat.le_refl n, hs, h⟩

theorem proceeds_fail {c : Complaint κ} {t : Token κ} {Q : α → Nat → Prop} (hc : c ≠ .unfinished)
    (ht : t ∈ ts) : Proceeds ts n (fail c t : Parser κ α) Q := by
  intro s _
  exact Or.inr ⟨⟨c, t⟩, rfl, hc, ht⟩

theorem Proceeds.bind {p : Parser κ α} {f : α → Parser κ β} {P : α → Nat → Prop}
    {Q : β → Nat → Prop} (hp : Proceeds ts n p P)
    (hf : ∀ a m, n ≤ m → P a m → Proceeds ts m (f a) Q) : Proceeds ts n (p >>= f) Q := by
  intro s hs
  have hrun : (p >>= f) s = (p s >>= fun r => f r.1 r.2) := rfl
  obtain ⟨a, s', m, hps, hm, hs', ha⟩ | ⟨e, hps, hc, ht⟩ := hp s hs
  · obtain ⟨b, s'', m', hfs, hm', hs'', hb⟩ | ⟨e, hfs, hc, ht⟩ := hf a m hm ha s' hs'
    · refine Or.inl ⟨b, s'', m', ?_, Nat.le_trans hm hm', hs'', hb⟩
      rw [hrun, hps]
      exact hfs
    · refine Or.inr ⟨e, ?_, hc, ht⟩
      rw [hrun, hps]
      exact hfs
  · refine Or.inr ⟨e, ?_, hc, ht⟩
    rw [hrun, hps]
    rfl

/-- A choice that stands behind the binding of what comes after it. -/
theorem proceeds_ite {c : Prop} [Decidable c] {p q : Parser κ α} {Q : α → Nat → Prop}
    (hp : c → Proceeds ts n p Q) (hq : ¬c → Proceeds ts n q Q) :
    Proceeds ts n (if c then p else q) Q := by
  by_cases h : c
  · rw [if_pos h]
    exact hp h
  · rw [if_neg h]
    exact hq h

/-! ## Tokens -/

theorem proceeds_get : Proceeds ts n (get : Parser κ (Stream κ)) fun s m => m = n ∧ s.At ts n := by
  intro s hs
  exact Or.inl ⟨s, s, n, rfl, Nat.le_refl n, hs, rfl, hs⟩

theorem proceeds_peek : Proceeds ts n (peek : Parser κ (Token κ)) fun t m =>
    m = n ∧ ts[n]? = some t := by
  intro s hs
  exact Or.inl ⟨s.next, s, n, rfl, Nat.le_refl n, hs, rfl, hs.getElem?_next⟩

/-- The end of the source is never consumed, and any other token is. -/
theorem proceeds_advance (hts : Ended ts) :
    Proceeds ts n (advance : Parser κ (Token κ)) fun t m =>
      ts[n]? = some t ∧ (t.kind ≠ .eof → n < m) := by
  intro s hs
  have hnext := hs.getElem?_next
  by_cases hnil : s.ahead = []
  · have hstay : s.advance = s := by
    -- At the end of the source nothing is left to consume.
      unfold Stream.advance
      rw [hnil]
    have hat : s.advance.At ts n := by
      rw [hstay]
      exact hs
    refine Or.inl ⟨s.next, s.advance, n, rfl, Nat.le_refl n, hat, hnext, fun hkind => ?_⟩
    exact absurd hnil (hs.ahead_ne_nil hts hkind)
  · obtain ⟨t, rest, hahead⟩ := List.exists_cons_of_ne_nil hnil
    have hsuffix : rest <:+ s.ahead := hahead ▸ List.suffix_cons t rest
    have hstep : s.advance = ⟨rest, s.eof, t⟩ := by
      unfold Stream.advance
      rw [hahead]
    have hat := hs.of_suffix hsuffix t
    have hlength : s.ahead.length - rest.length = 1 := by
      rw [hahead, List.length_cons]
      omega
    rw [hlength, ← hstep] at hat
    exact Or.inl
      ⟨s.next, s.advance, n + 1, rfl, Nat.le_succ n, hat, hnext, fun _ => Nat.lt_succ_self n⟩

/-- Consuming a token that has been seen. -/
theorem proceeds_advance_of_next (hts : Ended ts) {t : Token κ} (ht : ts[n]? = some t)
    (hkind : t.kind ≠ .eof) :
    Proceeds ts n (advance : Parser κ (Token κ)) fun t' m => t' = t ∧ n < m := by
  refine (proceeds_advance hts).mono ?_
  intro t' m _ h
  obtain ⟨ht', hlt⟩ := h
  have heq : t' = t := Option.some.inj (ht'.symm.trans ht)
  exact ⟨heq, hlt (heq ▸ hkind)⟩

theorem proceeds_nameToken (hts : Ended ts) :
    Proceeds ts n (nameToken : Parser κ (Token κ)) fun _ m => n < m := by
  refine proceeds_peek.bind ?_
  intro t m _ h
  obtain ⟨rfl, ht⟩ := h
  split
  · next hname =>
    have hkind : t.kind ≠ .eof := by
      intro heof
      rw [heof] at hname
      cases hname
    exact (proceeds_advance_of_next hts ht hkind).mono fun _ _ _ h => h.2
  · exact proceeds_fail (by simp) (List.mem_of_getElem? ht)

theorem proceeds_name (hts : Ended ts) :
    Proceeds ts n (name : Parser κ Text) fun _ m => n < m :=
  (proceeds_nameToken hts).bind fun _ _ _ h => proceeds_pure h

theorem proceeds_intOf {t : Token κ} (ht : t ∈ ts) :
    Proceeds ts n (intOf t) fun _ m => m = n := by
  unfold intOf
  split
  · exact proceeds_pure rfl
  · exact proceeds_fail (by simp) ht

/-! ## Loops -/

/-- A loop ends before its bound is used up if the bound counts the tokens ahead: every round
    consumes one of them. -/
theorem proceeds_rounds {done : Parser κ Bool} {body : σ → Parser κ σ}
    (hdone : ∀ m, Proceeds ts m done fun _ m' => m' = m)
    (hbody : ∀ a m, n ≤ m → Proceeds ts m (body a) fun _ m' => m < m') {bound : Nat}
    (hbound : ts.length - n ≤ bound) (a : σ) :
    Proceeds ts n (rounds done body bound a) fun _ _ => True := by
  induction bound generalizing n a with
  | zero =>
    apply proceeds_of_lt
    intro hlt
    omega
  | succ bound ih =>
    refine (hdone n).bind ?_
    intro b m _ hm
    subst hm
    split
    · exact proceeds_pure trivial
    · refine (hbody a m (Nat.le_refl m)).bind ?_
      intro a' m' _ hlt
      refine ih ?_ ?_ a'
      · intro b k hk
        exact hbody b k (by omega)
      · omega

theorem proceeds_repeatUntil {done : Parser κ Bool} {body : σ → Parser κ σ}
    (hdone : ∀ m, Proceeds ts m done fun _ m' => m' = m)
    (hbody : ∀ a m, n ≤ m → Proceeds ts m (body a) fun _ m' => m < m') (a : σ) :
    Proceeds ts n (repeatUntil done a body) fun _ _ => True := by
  refine proceeds_get.bind ?_
  intro s m _ h
  obtain ⟨rfl, hs⟩ := h
  have hlength := hs.length_ahead
  exact proceeds_rounds hdone hbody (by omega) a

/-! ## Dropping tokens -/

/-- A step that drops tokens only. -/
theorem proceeds_drop {f : Stream κ → List (Token κ)} (hf : ∀ s, f s <:+ s.ahead) :
    Proceeds ts n (modify fun s => { s with ahead := f s } : Parser κ Unit) fun _ _ => True := by
  intro s hs
  exact Or.inl ⟨(), _, _, rfl, Nat.le_add_right n _, hs.of_suffix (hf s) s.last, trivial⟩

/-- A step that drops the next token at least. -/
theorem proceeds_drop_of_next (hts : Ended ts) {t : Token κ} (ht : ts[n]? = some t)
    (hkind : t.kind ≠ .eof) {f : Stream κ → List (Token κ)}
    (hf : ∀ s rest, s.ahead = t :: rest → f s <:+ rest) :
    Proceeds ts n (modify fun s => { s with ahead := f s } : Parser κ Unit) fun _ m => n < m := by
  intro s hs
  obtain ⟨rest, hahead⟩ := hs.exists_ahead hts ht hkind
  have hsuffix : f s <:+ s.ahead := (hf s rest hahead).trans (hahead ▸ List.suffix_cons t rest)
  have hlength : (f s).length < s.ahead.length := by
    have := (hf s rest hahead).length_le
    rw [hahead, List.length_cons]
    omega
  refine Or.inl ⟨(), _, _, rfl, Nat.le_add_right n _, hs.of_suffix hsuffix s.last, ?_⟩
  omega

/-! ## Whole sources -/

theorem at_ofTokens (hts : Ended ts) : (Stream.ofTokens ts).At ts 0 := by
  obtain ⟨body, eof, rfl, -, -⟩ := hts
  unfold Stream.ofTokens Stream.At
  rw [List.getLastD_eq_getLast?, List.getLast?_concat, List.dropLast_concat]
  rfl

/-- A parser that proceeds from the first token gives a result or a complaint of the language. -/
theorem parse_of_proceeds (hts : Ended ts) {p : Parser κ α} {Q : α → Nat → Prop}
    (h : Proceeds ts 0 p Q) :
    (∃ a, parse p ts = .ok a) ∨
      ∃ e, parse p ts = .error e ∧ e.complaint ≠ .unfinished ∧ e.token ∈ ts := by
  unfold parse
  obtain ⟨a, s', _, hrun, -, -, -⟩ | ⟨e, hrun, hc, ht⟩ := h _ (at_ofTokens hts)
  · left
    rw [hrun]
    exact ⟨a, rfl⟩
  · right
    rw [hrun]
    exact ⟨e, rfl, hc, ht⟩

/-! ## Kinds of tokens -/

variable [DecidableEq κ]

theorem proceeds_nextIs (k : Kind κ) : Proceeds ts n (nextIs k) fun _ m => m = n :=
  proceeds_peek.bind fun _ _ _ h => proceeds_pure h.1

theorem proceeds_accept (hts : Ended ts) (k : Kind κ) :
    Proceeds ts n (accept k) fun _ _ => True := by
  refine (proceeds_nextIs k).bind ?_
  intro b m _ _
  split
  · exact (proceeds_advance hts).bind fun _ _ _ _ => proceeds_pure trivial
  · exact proceeds_pure trivial

theorem proceeds_expect (hts : Ended ts) {k : Kind κ} (hk : k ≠ .eof) :
    Proceeds ts n (expect k) fun t m => t ∈ ts ∧ n < m := by
  refine proceeds_peek.bind ?_
  intro t m _ h
  obtain ⟨rfl, ht⟩ := h
  split
  · next hkind =>
    refine (proceeds_advance_of_next hts ht (hkind ▸ hk)).mono ?_
    intro t' m' _ h
    exact ⟨h.1 ▸ List.mem_of_getElem? ht, h.2⟩
  · exact proceeds_fail (by simp) (List.mem_of_getElem? ht)

theorem proceeds_delimiter (hts : Ended ts) (d : Delimiter) :
    Proceeds ts n (delimiter d : Parser κ Unit) fun _ m => n < m :=
  (proceeds_expect hts (by simp)).bind fun _ _ _ h => proceeds_pure h.2

theorem proceeds_keyword (hts : Ended ts) (k : κ) :
    Proceeds ts n (keyword k) fun t m => t ∈ ts ∧ n < m :=
  proceeds_expect hts (by simp)

theorem proceeds_string (hts : Ended ts) :
    Proceeds ts n (string : Parser κ Text) fun _ m => n < m :=
  (proceeds_expect hts (by simp)).bind fun _ _ _ h => proceeds_pure h.2

theorem proceeds_atEnd : Proceeds ts n (atEnd : Parser κ Bool) fun _ m => m = n :=
  proceeds_nextIs .eof

theorem proceeds_isAt (d : Delimiter) :
    Proceeds ts n (isAt d : Parser κ Bool) fun _ m => m = n := by
  refine proceeds_atEnd.bind ?_
  intro b m _ hm
  subst hm
  split
  · exact proceeds_pure rfl
  · exact proceeds_nextIs _

/-! ## Skipping blocks -/

theorem dropBraces_suffix (depth : Nat) (us : List (Token κ)) : dropBraces depth us <:+ us := by
  fun_induction dropBraces depth us with
  | case1 us => exact List.suffix_refl us
  | case2 => exact List.suffix_refl []
  | case3 depth t rest _ ih => exact ih.trans (List.suffix_cons t rest)
  | case4 depth t rest _ _ ih => exact ih.trans (List.suffix_cons t rest)
  | case5 depth t rest _ _ ih => exact ih.trans (List.suffix_cons t rest)

/-- What is left behind a skipped block. -/
def behindBlock (s : Stream κ) : List (Token κ) :=
  dropBraces 1 (((s.ahead.drop 1).dropWhile fun t => t.kind != .delimiter .leftBrace).drop 1)

theorem behindBlock_suffix (s : Stream κ) : behindBlock s <:+ s.ahead.drop 1 :=
  (dropBraces_suffix 1 _).trans ((List.drop_suffix 1 _).trans (List.dropWhile_suffix _))

theorem proceeds_skipBlock : Proceeds ts n (skipBlock : Parser κ Unit) fun _ _ => True :=
  proceeds_drop (f := behindBlock) fun s => (behindBlock_suffix s).trans
    (List.drop_suffix 1 s.ahead)

theorem proceeds_skipBlock_of_next (hts : Ended ts) {t : Token κ} (ht : ts[n]? = some t)
    (hkind : t.kind ≠ .eof) : Proceeds ts n (skipBlock : Parser κ Unit) fun _ m => n < m := by
  apply proceeds_drop_of_next (f := behindBlock) hts ht hkind
  intro s rest hahead
  have hsuffix := behindBlock_suffix s
  rwa [hahead] at hsuffix

end Parser

end IdlBridge.Idl
