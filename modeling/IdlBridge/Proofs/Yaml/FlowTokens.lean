import IdlBridge.Proofs.Yaml.Quoted
import IdlBridge.Yaml.Lexer

/-! # Tokens of a line in brackets

    A document that stands on one line between brackets has neither indentation nor marked keys.
    All that the lexer has to keep is the places where a simple key may have started, one for each
    number of brackets at most.  A key is found again at its colon, unless it is too long by then:
    it is forgotten after 1024 characters, and its token is missing.
-/

namespace IdlBridge.Yaml.Lexer

open Cursor

/-! ## States and steps -/

/-- The lexer on the first line of a document, with the tokens so far. -/
def onLine (rest : Text) (i : Nat) (done : List Token) (level : Nat) (allowed : Bool)
    (keys : List (Nat × SimpleKey)) : Lexer :=
  ⟨.inline rest i, done.reverse, done.length, level, -1, [], allowed, keys⟩

/-- The possible keys have fewer than `n` brackets around them, and none of them has to be one. -/
def Below (n : Nat) (keys : List (Nat × SimpleKey)) : Prop :=
  ∀ k ∈ keys, k.1 < n ∧ k.2.required = false

theorem Below.mono {n m : Nat} (h : n ≤ m) {keys : List (Nat × SimpleKey)} (hkeys : Below n keys) :
    Below m keys :=
  fun k hk => ⟨Nat.lt_of_lt_of_le (hkeys k hk).1 h, (hkeys k hk).2⟩

theorem Below.filter {n : Nat} {keys : List (Nat × SimpleKey)} (hkeys : Below n keys)
    (p : Nat × SimpleKey → Bool) : Below n (keys.filter p) :=
  fun k hk => hkeys k (List.mem_filter.1 hk).1

/-- Reading some tokens leads from one state to the other.  Each token takes one character at
    least. -/
def Steps (lx lx' : Lexer) : Prop :=
  ∃ n, n + lx.cursor.index ≤ lx'.cursor.index ∧ ∀ bound, lex (bound + n) lx = lex bound lx'

theorem Steps.refl (lx : Lexer) : Steps lx lx := ⟨0, Nat.le_of_eq (Nat.zero_add _), fun _ => rfl⟩

theorem Steps.trans {lx lx' lx'' : Lexer} (h : Steps lx lx') (h' : Steps lx' lx'') :
    Steps lx lx'' := by
  obtain ⟨n, hn, hlex⟩ := h
  obtain ⟨n', hn', hlex'⟩ := h'
  refine ⟨n' + n, by omega, fun bound => ?_⟩
  rw [← Nat.add_assoc, hlex, hlex']

/-- What is read once the next token is found. -/
theorem lex_of_fetch {lx next : Lexer} (h : lx.fetch = .ok next) (bound : Nat) :
    lex (bound + 1) lx =
      if next.reversed.head? = some .streamEnd then ⟨next.reversed.reverse, none⟩
      else lex bound next := by
  rw [lex.eq_def]
  dsimp only
  rw [h]

/-! ## Between tokens -/

/-- What the lexer does at the next token, once it has got there; the token starts with `x`. -/
def dispatch (x : CodePoint) (lx : Lexer) : Except Fault Lexer :=
  let c := lx.cursor
  let flow := lx.flowLevel ≠ 0
  let marked := flow || isBlankOrEnd (c.peekAt 1)
  if x = nul then lx.fetchEnd
  else if c.column = 0 ∧ x = '%' then lx.fetchDirective
  else if c.column = 0 ∧ x = '-' ∧ c.atDocumentMark then lx.fetchMark .documentStart
  else if c.column = 0 ∧ x = '.' ∧ c.atDocumentMark then lx.fetchMark .documentEnd
  else if x = '[' then lx.fetchOpening .flowSequenceStart
  else if x = '{' then lx.fetchOpening .flowMappingStart
  else if x = ']' then lx.fetchClosing .flowSequenceEnd
  else if x = '}' then lx.fetchClosing .flowMappingEnd
  else if x = ',' then lx.fetchFlowEntry
  else if x = '-' ∧ isBlankOrEnd (c.peekAt 1) then lx.fetchBlockEntry
  else if x = '?' ∧ marked then lx.fetchKey
  else if x = ':' ∧ marked then lx.fetchValue
  else if x = '*' then lx.fetchContent fun c => do
    let (name, c) ← anchorName c
    return (.aliasOf name, c)
  else if x = '&' then lx.fetchContent fun c => do
    let (name, c) ← anchorName c
    return (.anchor name, c)
  else if x = '!' then lx.fetchContent fun c => do
    let (t, c) ← tag c
    return (.tag t, c)
  else if x = '|' ∧ !flow then lx.fetchBlockScalar false
  else if x = '>' ∧ !flow then lx.fetchBlockScalar true
  else if x = '\'' then lx.fetchContent fun c => do
    let (t, c) ← Flow.scan false c
    return (.scalar t false, c)
  else if x = '"' then lx.fetchContent fun c => do
    let (t, c) ← Flow.scan true c
    return (.scalar t false, c)
  else if startsPlain flow c then lx.fetchPlain
  else throw (.malformed .strayCharacter)

theorem fetch_eq_dispatch (lx : Lexer) : lx.fetch = (do
    let lx ← lx.toNextToken.dropStale
    let lx := lx.unwind lx.cursor.column
    dispatch lx.cursor.peek lx) := rfl

/-- The possible keys that are not too long at a place. -/
def fresh (i : Nat) (keys : List (Nat × SimpleKey)) : List (Nat × SimpleKey) :=
  keys.filter fun k => !(decide (k.2.line ≠ 0) || decide (k.2.index + 1024 < i))

/-- At most one space. -/
def IsGap (sp : Text) : Prop := sp = [] ∨ sp = [(' ' : CodePoint)]

section Blanks

variable {rest sp : Text} {i level n : Nat} {done : List Token} {allowed : Bool}
  {keys : List (Nat × SimpleKey)} {x : CodePoint}

theorem skipSpaces_of_ne (hspace : x ≠ ' ') :
    (inline (x :: rest) i).skipSpaces = inline (x :: rest) i := by
  refine (skip_of_neg ?_).2
  refine decide_eq_false fun h => hspace ?_
  rw [← CodePoint.ofNat_toNat x, show x.toNat = 0x20 from h]
  rfl

theorem skipSpaces_space (hspace : x ≠ ' ') :
    (inline ((' ' : CodePoint) :: x :: rest) i).skipSpaces = inline (x :: rest) (i + 1) := by
  have hrun : (inline ((' ' : CodePoint) :: x :: rest) i).run (fun x => decide (x.toNat = 0x20)) =
      [(' ' : CodePoint)] := by
    have hx : decide (x.toNat = 0x20) = false := by
      refine decide_eq_false fun h => hspace ?_
      rw [← CodePoint.ofNat_toNat x, h]
      rfl
    show List.takeWhile _ ((' ' : CodePoint) :: x :: rest) = _
    rw [List.takeWhile_cons_of_pos (by decide), List.takeWhile_cons_of_neg (by simpa using hx)]
  have hnext : (inline ((' ' : CodePoint) :: x :: rest) i).next = inline (x :: rest) (i + 1) :=
    next_inline (by decide)
  rw [skipSpaces, Cursor.skip, hrun]
  exact hnext

theorem toNextToken_eq {lx : Lexer} {c : Cursor}
    (hmark : ¬(lx.cursor.index = 0 ∧ lx.cursor.peek = byteOrderMark))
    (h : skipBlanks (lx.cursor.rest.length + 1) lx.cursor false = (c, false)) :
    lx.toNextToken = lx.moveTo c := by
  unfold toNextToken
  simp only [if_neg hmark, h, Bool.false_and, Bool.or_false]
  rfl

/-- In front of a token there is at most a space. -/
theorem toNextToken_onLine (hsp : IsGap sp) (hx : x.IsInline) (hspace : x ≠ ' ') (hhash : x ≠ '#') :
    (onLine (sp ++ x :: rest) i done level allowed keys).toNextToken =
      onLine (x :: rest) (i + sp.length) done level allowed keys := by
  have hmark : ∀ c r, c.IsInline → ¬((inline (c :: r) i).index = 0 ∧
      (inline (c :: r) i).peek = byteOrderMark) := by
    rintro c r hc ⟨-, hmark⟩
    exact CodePoint.forall_isInline (P := (· ≠ byteOrderMark)) (by decide) hc hmark
  have hbreak : isBreak x = false :=
    CodePoint.forall_isInline (P := fun c => isBreak c = false) (by decide) hx
  have hcomment : ∀ j, (inline (x :: rest) j).skipComment = inline (x :: rest) j := fun j => by
    rw [skipComment, peek_inline, if_neg hhash]
  have hblanks : ∀ {c j} bound, c.skipSpaces = inline (x :: rest) j →
      skipBlanks (bound + 1) c false = (inline (x :: rest) j, false) := by
    intro c j bound hc
    rw [skipBlanks]
    simp only [hc, hcomment, peek_inline, hbreak, Bool.false_eq_true, if_false]
  rcases hsp with rfl | rfl
  · exact toNextToken_eq (hmark x rest hx) (hblanks _ (skipSpaces_of_ne hspace))
  · exact toNextToken_eq (hmark ' ' (x :: rest) (by decide)) (hblanks _ (skipSpaces_space hspace))

theorem dropStale_onLine (hkeys : Below n keys) :
    (onLine rest i done level allowed keys).dropStale =
      .ok (onLine rest i done level allowed (fresh i keys)) := by
  have hrequired : (keys.any fun k =>
      (onLine rest i done level allowed keys).isStale k.2 && k.2.required) = false := by
    rw [List.any_eq_false]
    intro k hk
    rw [(hkeys k hk).2, Bool.and_false]
    decide
  unfold dropStale
  rw [show (onLine rest i done level allowed keys).keys = keys from rfl, hrequired]
  rfl

theorem unwind_onLine (column : Nat) :
    (onLine rest i done level allowed keys).unwind column =
      onLine rest i done level allowed keys := by
  have hclosed : ¬(column : Int) < -1 := by omega
  unfold unwind
  split
  · unfold unwindTo onLine
    simp [hclosed]
  · rfl

/-- The next token is looked for behind the space in front of it. -/
theorem fetch_onLine (hsp : IsGap sp) (hx : x.IsInline) (hspace : x ≠ ' ') (hhash : x ≠ '#')
    (hkeys : Below n keys) :
    (onLine (sp ++ x :: rest) i done level allowed keys).fetch =
      dispatch x (onLine (x :: rest) (i + sp.length) done level allowed
        (fresh (i + sp.length) keys)) := by
  rw [fetch_eq_dispatch, toNextToken_onLine hsp hx hspace hhash, dropStale_onLine hkeys]
  show dispatch (unwind _ _).cursor.peek (unwind _ _) = _
  rw [unwind_onLine]
  rfl

/-- One token. -/
theorem step_onLine (hsp : IsGap sp) (hx : x.IsInline) (hspace : x ≠ ' ') (hhash : x ≠ '#')
    (hkeys : Below n keys) {rest' : Text} {j : Nat} {done' : List Token} {t : Token}
    {level' : Nat} {allowed' : Bool} {keys' : List (Nat × SimpleKey)}
    (hdispatch : dispatch x (onLine (x :: rest) (i + sp.length) done level allowed
      (fresh (i + sp.length) keys)) =
        .ok (onLine rest' j (done' ++ [t]) level' allowed' keys'))
    (hend : t ≠ .streamEnd) (hj : i + sp.length < j) :
    Steps (onLine (sp ++ x :: rest) i done level allowed keys)
      (onLine rest' j (done' ++ [t]) level' allowed' keys') := by
  refine ⟨1, ?_, fun bound => ?_⟩
  · show 1 + i ≤ j
    omega
  · have hhead : ¬(onLine rest' j (done' ++ [t]) level' allowed' keys').reversed.head? =
        some .streamEnd := by
      show ¬(done' ++ [t]).reverse.head? = _
      rw [List.reverse_append, List.reverse_singleton]
      exact fun h => hend (Option.some.inj h)
    rw [lex_of_fetch ((fetch_onLine hsp hx hspace hhash hkeys).trans hdispatch), if_neg hhead]

end Blanks

/-! ## Brackets, commas and colons -/

section Marks

variable {rest sp : Text} {i level n : Nat} {done : List Token} {allowed : Bool}
  {keys : List (Nat × SimpleKey)}

/-- Adding a token at the end. -/
theorem push_onLine (t : Token) : (onLine rest i done level allowed keys).push t =
    onLine rest i (done ++ [t]) level allowed keys := by
  simp [push, onLine]

/-- Going behind a character that is a token. -/
theorem advance_onLine (x : CodePoint) (hx : x.IsInline) (t : Token) :
    ((onLine (x :: rest) i done level allowed keys).moveTo (inline (x :: rest) i).next).push t =
      onLine rest (i + 1) (done ++ [t]) level allowed keys := by
  rw [next_inline hx, ← push_onLine]
  rfl

/-- The possible keys when something starts that may be one. -/
def saved (i : Nat) (done : List Token) (level : Nat) (allowed : Bool)
    (keys : List (Nat × SimpleKey)) : List (Nat × SimpleKey) :=
  if allowed then (level, ⟨done.length, false, i, 0, i⟩) :: keys else keys

theorem below_saved (h : Below level keys) :
    Below (level + 1) (saved i done level allowed keys) := by
  unfold saved
  split
  · exact List.forall_mem_cons.2 ⟨⟨Nat.lt_succ_self _, rfl⟩, h.mono (Nat.le_succ _)⟩
  · exact h.mono (Nat.le_succ _)

/-- Where no key is possible with that many brackets, none is given up. -/
theorem key?_of_below (h : Below level keys) :
    (onLine rest i done level allowed keys).key? = none := by
  have hnone : keys.find? (fun k => decide (k.1 = level)) = none := by
    rw [List.find?_eq_none]
    intro k hk heq
    exact absurd (of_decide_eq_true heq) (Nat.ne_of_lt (h k hk).1)
  show (keys.find? (fun k => decide (k.1 = level))).map _ = none
  rw [hnone]
  rfl

theorem saveKey_onLine (h : Below level keys) :
    (onLine rest i done level allowed keys).saveKey =
      .ok (onLine rest i done level allowed (saved i done level allowed keys)) := by
  have hcolumn : ¬(-1 : Int) = (i : Int) := by omega
  cases allowed with
  | false => rfl
  | true =>
    have hrequired : (decide (level = 0) && decide ((-1 : Int) = (i : Int))) = false := by
      rw [decide_eq_false hcolumn, Bool.and_false]
    unfold saveKey removeKey
    rw [key?_of_below h]
    show Except.ok { onLine rest i done level true keys with
      keys := (level, ⟨done.length, decide (level = 0) && decide ((-1 : Int) = (i : Int)),
        i, 0, i⟩) :: keys } = _
    rw [hrequired]
    rfl

/-- The possible key with that many brackets is given up. -/
theorem removeKey_onLine (h : Below n keys) :
    (onLine rest i done level allowed keys).removeKey =
      .ok (onLine rest i done level allowed (keys.filter (·.1 ≠ level))) := by
  unfold removeKey
  cases hkey : (onLine rest i done level allowed keys).key? with
  | none =>
    have hfilter : keys.filter (·.1 ≠ level) = keys := by
      rw [List.filter_eq_self]
      intro k hk
      have hnone := List.find?_eq_none.1 (Option.map_eq_none_iff.1 hkey) k hk
      exact decide_eq_true fun heq => hnone (decide_eq_true heq)
    rw [hfilter]
  | some k =>
    obtain ⟨e, he, rfl⟩ := Option.map_eq_some_iff.1 hkey
    have hrequired : e.2.required = false := (h e (List.mem_of_find?_eq_some he)).2
    simp only [hrequired, Bool.false_eq_true, if_false]
    rfl

theorem below_filter_ne (h : Below (level + 1) keys) : Below level (keys.filter (·.1 ≠ level)) := by
  intro k hk
  obtain ⟨hmem, hne⟩ := List.mem_filter.1 hk
  have hlt := (h k hmem).1
  have hne : k.1 ≠ level := by simpa using hne
  exact ⟨by omega, (h k hmem).2⟩

/-- A character that starts a token by itself. -/
def IsMark (x : CodePoint) : Prop := x.IsInline ∧ x ≠ ' ' ∧ x ≠ '#'

instance (x : CodePoint) : Decidable (IsMark x) := inferInstanceAs (Decidable (_ ∧ _ ∧ _))

theorem dispatch_openBracket (lx : Lexer) :
    dispatch '[' lx = lx.fetchOpening .flowSequenceStart := by
  simp +decide [dispatch]

theorem dispatch_openBrace (lx : Lexer) : dispatch '{' lx = lx.fetchOpening .flowMappingStart := by
  simp +decide [dispatch]

theorem dispatch_closeBracket (lx : Lexer) :
    dispatch ']' lx = lx.fetchClosing .flowSequenceEnd := by
  simp +decide [dispatch]

theorem dispatch_closeBrace (lx : Lexer) : dispatch '}' lx = lx.fetchClosing .flowMappingEnd := by
  simp +decide [dispatch]

theorem dispatch_comma (lx : Lexer) : dispatch ',' lx = lx.fetchFlowEntry := by
  simp +decide [dispatch]

theorem dispatch_colon {lx : Lexer} (h : lx.flowLevel ≠ 0) : dispatch ':' lx = lx.fetchValue := by
  simp +decide [dispatch, h]

theorem dispatch_quote (lx : Lexer) : dispatch '"' lx = lx.fetchContent fun c => do
    let (t, c) ← Flow.scan true c
    return (.scalar t false, c) := by
  simp +decide [dispatch]

variable {x : CodePoint} {t : Token}

theorem steps_opening (hx : IsMark x) (hdispatch : ∀ lx, dispatch x lx = lx.fetchOpening t)
    (hend : t ≠ .streamEnd) (hsp : IsGap sp) (h : Below level keys) :
    ∃ keys', Below (level + 1) keys' ∧
      Steps (onLine (sp ++ x :: rest) i done level allowed keys)
        (onLine rest (i + sp.length + 1) (done ++ [t]) (level + 1) true keys') := by
  have hfresh : Below level (fresh (i + sp.length) keys) := h.filter _
  refine ⟨saved (i + sp.length) done level allowed (fresh (i + sp.length) keys), below_saved hfresh,
    step_onLine hsp hx.1 hx.2.1 hx.2.2 h ?_ hend (Nat.lt_succ_self _)⟩
  rw [hdispatch, fetchOpening, saveKey_onLine hfresh, ← advance_onLine x hx.1 t]
  rfl

theorem steps_closing (hx : IsMark x) (hdispatch : ∀ lx, dispatch x lx = lx.fetchClosing t)
    (hend : t ≠ .streamEnd) (h : Below (level + 2) keys) :
    ∃ keys', Below (level + 1) keys' ∧
      Steps (onLine (x :: rest) i done (level + 1) allowed keys)
        (onLine rest (i + 1) (done ++ [t]) level false keys') := by
  have hfresh : Below (level + 2) (fresh i keys) := h.filter _
  refine ⟨_, below_filter_ne hfresh,
    step_onLine (Or.inl rfl) hx.1 hx.2.1 hx.2.2 h ?_ hend (Nat.lt_succ_self _)⟩
  rw [hdispatch, fetchClosing]
  show (removeKey (onLine (x :: rest) i done (level + 1) allowed (fresh i keys)) >>= _) = _
  rw [removeKey_onLine hfresh, ← advance_onLine x hx.1 t]
  rfl

theorem steps_comma (h : Below (level + 1) keys) :
    ∃ keys', Below level keys' ∧
      Steps (onLine ((',' : CodePoint) :: rest) i done level allowed keys)
        (onLine rest (i + 1) (done ++ [.flowEntry]) level true keys') := by
  have hfresh : Below (level + 1) (fresh i keys) := h.filter _
  refine ⟨_, below_filter_ne hfresh,
    step_onLine (Or.inl rfl) (by decide) (by decide) (by decide) h ?_ (by simp)
      (Nat.lt_succ_self _)⟩
  rw [dispatch_comma, fetchFlowEntry]
  show (removeKey (onLine ((',' : CodePoint) :: rest) i done level allowed (fresh i keys))
    >>= _) = _
  rw [removeKey_onLine hfresh, ← advance_onLine ',' (by decide) .flowEntry]
  rfl

end Marks

/-! ## Scalars -/

section Scalars

variable {rest sp : Text} {i level : Nat} {done : List Token} {allowed : Bool}
  {keys : List (Nat × SimpleKey)}

theorem step_quoted (t rest : Text) (i : Nat) (done : List Token) (allowed : Bool)
    (hsp : IsGap sp) (h : Below level keys) :
    Steps (onLine (sp ++ (t.dataString true ++ rest)) i done level allowed keys)
      (onLine rest (i + sp.length + (t.dataString true).length) (done ++ [.scalar t.units false])
        level false
        (saved (i + sp.length) done level allowed (fresh (i + sp.length) keys))) := by
  have hfresh : Below level (fresh (i + sp.length) keys) := h.filter _
  have hpos : 0 < (t.dataString true).length := by
    rw [Flow.length_dataString]
    omega
  have hscan := Flow.scan_dataString t rest (i + sp.length)
  rw [Flow.dataString_append] at hscan ⊢
  refine step_onLine hsp (by decide) (by decide) (by decide) h ?_ (by simp) (by omega)
  rw [dispatch_quote, fetchContent, saveKey_onLine hfresh, ← push_onLine]
  show ((Flow.scan true (inline _ (i + sp.length)) >>= _) >>= _) = _
  rw [hscan]
  rfl

/-- A possible key becomes one at the colon. -/
theorem fetchValue_found {j : Nat} {scalar : Token} {k : SimpleKey}
    (hk : k.tokensBefore = done.length) (h : Below (level + 1) keys) :
    (onLine ((':' : CodePoint) :: rest) j (done ++ [scalar]) (level + 1) allowed
      ((level + 1, k) :: keys)).fetchValue =
      .ok (onLine rest (j + 1) (done ++ [.key, scalar, .value]) (level + 1) false keys) := by
  have hkey : (onLine ((':' : CodePoint) :: rest) j (done ++ [scalar]) (level + 1) allowed
      ((level + 1, k) :: keys)).key? = some k := by
    simp [key?, onLine]
  have hforget : ((level + 1, k) :: keys).filter (·.1 ≠ level + 1) = keys := by
    rw [List.filter_cons_of_neg (by simp), List.filter_eq_self]
    intro e he
    have := (h e he).1
    exact decide_eq_true (by omega)
  -- The key token is put before the scalar, where the key was noted to start.
  have hinsert : (onLine ((':' : CodePoint) :: rest) j (done ++ [scalar]) (level + 1) allowed
      ((level + 1, k) :: keys)).forgetKey.insert k.tokensBefore .key =
      onLine ((':' : CodePoint) :: rest) j (done ++ [.key, scalar]) (level + 1) allowed keys := by
    unfold forgetKey onLine
    simp only [hforget]
    simp [Lexer.insert, hk]
  have hlevel : ¬(onLine ((':' : CodePoint) :: rest) j (done ++ [.key, scalar]) (level + 1) allowed
      keys).flowLevel = 0 := Nat.succ_ne_zero level
  unfold fetchValue
  simp only [hkey, hinsert, if_neg hlevel]
  have htokens : done ++ [.key, scalar, .value] = (done ++ [.key, scalar]) ++ [.value] := by simp
  rw [htokens, ← advance_onLine ':' (by decide) .value]
  rfl

/-- Where no key is possible the colon stands alone. -/
theorem fetchValue_missing {j : Nat} (h : Below (level + 1) keys) :
    (onLine ((':' : CodePoint) :: rest) j done (level + 1) allowed keys).fetchValue =
      .ok (onLine rest (j + 1) (done ++ [.value]) (level + 1) false keys) := by
  have hopen : (onLine ((':' : CodePoint) :: rest) j done (level + 1) allowed keys).openBlock
      .blockMappingStart .misplacedValue =
      .ok (onLine ((':' : CodePoint) :: rest) j done (level + 1) allowed keys) :=
    if_pos (Nat.succ_ne_zero level)
  have hremove : (onLine ((':' : CodePoint) :: rest) j done (level + 1) allowed keys).removeKey =
      .ok (onLine ((':' : CodePoint) :: rest) j done (level + 1) allowed keys) := by
    rw [removeKey, key?_of_below h]
  unfold fetchValue
  rw [key?_of_below h]
  simp only [hopen, bind, Except.bind, hremove]
  rw [← advance_onLine ':' (by decide) .value]
  rfl

/-- Whether a possible key is still one at a place. -/
theorem fresh_cons {j : Nat} (e : Nat × SimpleKey) (hline : e.2.line = 0) :
    fresh j (e :: keys) = if e.2.index + 1024 < j then fresh j keys else e :: fresh j keys := by
  unfold fresh
  split
  · next h => rw [List.filter_cons_of_neg (by simp [h])]
  · next h => rw [List.filter_cons_of_pos (by simp [h, hline])]

/-- A colon behind a scalar that may be a key. -/
theorem steps_colon {j : Nat} {scalar : Token} {k : SimpleKey} (hline : k.line = 0)
    (hrequired : k.required = false) (hk : k.tokensBefore = done.length)
    (h : Below (level + 1) keys) :
    Steps (onLine ((':' : CodePoint) :: rest) j (done ++ [scalar]) (level + 1) allowed
        ((level + 1, k) :: keys))
      (onLine rest (j + 1) (done ++ (if k.index + 1024 < j then [scalar] else [.key, scalar]) ++
        [.value]) (level + 1) false (fresh j keys)) := by
  have hkeys : Below (level + 2) ((level + 1, k) :: keys) :=
    List.forall_mem_cons.2 ⟨⟨Nat.lt_succ_self _, hrequired⟩, h.mono (Nat.le_succ _)⟩
  have hfresh : Below (level + 1) (fresh j keys) := h.filter _
  refine step_onLine (Or.inl rfl) (by decide) (by decide) (by decide) hkeys ?_ (by simp)
    (Nat.lt_succ_self _)
  rw [dispatch_colon (Nat.succ_ne_zero level)]
  show fetchValue (onLine _ j _ _ _ (fresh j _)) = _
  rw [fresh_cons (level + 1, k) hline]
  -- A key that is too long has been dropped as stale when the colon is met.
  by_cases hlong : k.index + 1024 < j
  · rw [if_pos hlong, if_pos hlong]
    exact fetchValue_missing hfresh
  · rw [if_neg hlong, if_neg hlong, List.append_assoc]
    exact fetchValue_found hk hfresh

/-- The tokens of a key and of the colon behind it.  A key that is too long has no mark. -/
def keyTokens (t : Text) : List Token :=
  (if 1024 < (t.dataString true).length then [.scalar t.units false]
    else [.key, .scalar t.units false]) ++ [.value]

theorem steps_key (t : Text) (hsp : IsGap sp) (h : Below (level + 1) keys) :
    ∃ keys', Below (level + 1) keys' ∧
      Steps (onLine (sp ++ (t.dataString true ++ (':' : CodePoint) :: rest)) i done (level + 1) true
          keys)
        (onLine rest (i + sp.length + (t.dataString true).length + 1) (done ++ keyTokens t)
          (level + 1) false keys') := by
  have hquoted := step_quoted t ((':' : CodePoint) :: rest) i done true hsp h
  have hkeys : Below (level + 1) (fresh (i + sp.length) keys) := h.filter _
  refine ⟨fresh (i + sp.length + (t.dataString true).length) (fresh (i + sp.length) keys),
    hkeys.filter _, hquoted.trans ?_⟩
  have hcolon : Steps (onLine ((':' : CodePoint) :: rest)
      (i + sp.length + (t.dataString true).length) (done ++ [.scalar t.units false]) (level + 1)
      false ((level + 1, ⟨done.length, false, i + sp.length, 0, i + sp.length⟩) ::
        fresh (i + sp.length) keys)) _ := steps_colon rfl rfl rfl hkeys
  have hlong : i + sp.length + 1024 < i + sp.length + (t.dataString true).length ↔
      1024 < (t.dataString true).length := by omega
  simp only [hlong] at hcolon
  rw [keyTokens, ← List.append_assoc]
  exact hcolon

/-- A word of letters, digits, points and signs that starts with a letter or a digit, behind a
    minus sign at most. -/
structure IsWord (t : Text) : Prop where
  chars : ∀ c ∈ t, c.isAsciiAlnum = true ∨ c = '.' ∨ c = '+' ∨ c = '-'
  start : ∃ c r, c.isAsciiAlnum = true ∧ (t = c :: r ∨ t = ('-' : CodePoint) :: c :: r)

/-- What follows an item between brackets: a comma or a closing bracket. -/
def Follows (rest : Text) : Prop :=
  ∃ c r, rest = c :: r ∧ (c = ',' ∨ c = ']' ∨ c = '}')

/-- What is decided of the characters of words. -/
theorem forall_wordChar {P : CodePoint → Prop}
    (h : ∀ n, (hn : n < 128) → CodePoint.isAsciiAlnum ⟨n, Nat.lt_trans hn (by decide)⟩ = true →
      P ⟨n, Nat.lt_trans hn (by decide)⟩) (hpoint : P '.') (hplus : P '+') (hminus : P '-')
    {c : CodePoint} (hc : c.isAsciiAlnum = true ∨ c = '.' ∨ c = '+' ∨ c = '-') : P c := by
  rcases hc with hc | rfl | rfl | rfl
  · exact CodePoint.forall_isAsciiAlnum h c hc
  · exact hpoint
  · exact hplus
  · exact hminus

theorem IsWord.isInline {t : Text} (h : IsWord t) : ∀ c ∈ t, c.IsInline := fun c hc =>
  forall_wordChar (P := CodePoint.IsInline) (by decide) (by decide) (by decide) (by decide)
    (h.chars c hc)

/-- A plain scalar reaches up to the comma or the bracket behind it. -/
theorem plain_run {t : Text} (h : ∀ c ∈ t, c.isAsciiAlnum = true ∨ c = '.' ∨ c = '+' ∨ c = '-')
    (hrest : Follows rest) : Plain.run true (t ++ rest) = t := by
  induction t with
  | nil =>
    obtain ⟨c, r, rfl, rfl | rfl | rfl⟩ := hrest <;> simp +decide [Plain.run]
  | cons c t ih =>
    obtain ⟨hc, ht⟩ := List.forall_mem_cons.1 h
    have hchar := forall_wordChar
      (P := fun c => isBlankOrEnd c = false ∧ c ≠ ':' ∧ isOneOf ",?[]\x7b\x7d" c = false)
      (by decide) (by decide) (by decide) (by decide) hc
    rw [List.cons_append, Plain.run]
    simp [hchar.1, hchar.2.1, hchar.2.2, ih ht]

theorem plain_scan {t : Text} (h : IsWord t) (hrest : Follows rest) (indent : Nat) :
    Plain.scan true indent (inline (t ++ rest) i) = (t, inline rest (i + t.length), false) := by
  have hrun := plain_run h.chars hrest
  have hforward : (inline (t ++ rest) i).forward t.length = inline rest (i + t.length) :=
    forward_inline h.isInline
  have hne : t ≠ [] := by
    obtain ⟨c, r, -, rfl | rfl⟩ := h.start <;> simp
  have hhash : (inline (t ++ rest) i).peek ≠ '#' := by
    obtain ⟨c, r, hc, rfl | rfl⟩ := h.start
    · exact CodePoint.forall_isAsciiAlnum (P := (· ≠ '#')) (by decide) c hc
    · show ('-' : CodePoint) ≠ '#'
      decide
  -- Nothing stands between the word and what follows it.
  have hgap : Plain.gap (inline rest (i + t.length)) = ([], inline rest (i + t.length), false) := by
    obtain ⟨c, r, rfl, hc⟩ := hrest
    have hspace : c ≠ ' ' ∧ isBreak c = false := by
      rcases hc with rfl | rfl | rfl <;> decide
    have hblanks : (inline (c :: r) (i + t.length)).run
        (fun x => decide (x.toNat = 0x20)) = [] := by
      rcases hc with rfl | rfl | rfl <;> rfl
    unfold Plain.gap
    simp only [hblanks, skipSpaces_of_ne hspace.1, peek_inline, hspace.2, Bool.false_eq_true,
      if_false]
  unfold Plain.scan Plain.runs
  have hstop : ¬((inline (t ++ rest) i).peek = '#' ∨
      Plain.run true (inline (t ++ rest) i).rest = []) := by
    rintro (heq | heq)
    · exact hhash heq
    · exact hne (hrun.symm.trans heq)
  rw [if_neg hstop]
  simp only [show Plain.run true (inline (t ++ rest) i).rest = t from hrun, hforward, hgap,
    List.append_nil, List.nil_append, true_or, if_true]

/-- A letter or a digit starts a plain scalar. -/
theorem dispatch_alnum {lx : Lexer} {x : CodePoint} (hx : x.isAsciiAlnum = true)
    (hpeek : lx.cursor.peek = x) : dispatch x lx = lx.fetchPlain := by
  have hmarks : ∀ y ∈ [nul, '%', '-', '.', '[', '{', ']', '}', ',', '?', ':', '*', '&', '!', '|',
      '>', '\'', '"'], x ≠ y :=
    CodePoint.forall_isAsciiAlnum (P := fun x => ∀ y ∈ [nul, '%', '-', '.', '[', '{', ']', '}', ',',
      '?', ':', '*', '&', '!', '|', '>', '\'', '"'], x ≠ y) (by decide +kernel) x hx
  have hplain := CodePoint.forall_isAsciiAlnum (P := fun x => isBlankOrEnd x = false ∧
    isOneOf "-?:,[]\x7b\x7d#&*!|>'\"%@`" x = false) (by decide +kernel) x hx
  have hstart : ∀ flow, startsPlain flow lx.cursor = true := fun flow => by
    unfold startsPlain
    simp only [hpeek, hplain.1, hplain.2, Bool.or_self, Bool.not_false, Bool.true_or]
  simp only [List.forall_mem_cons] at hmarks
  unfold dispatch
  simp [hmarks, hstart]

/-- A minus sign in front of something starts one too. -/
theorem dispatch_minus {c : CodePoint} (hi : 0 < i) (hnext : isBlankOrEnd c = false) :
    dispatch '-' (onLine (('-' : CodePoint) :: c :: rest) i done level allowed keys) =
      (onLine (('-' : CodePoint) :: c :: rest) i done level allowed keys).fetchPlain := by
  have hcolumn : (onLine (('-' : CodePoint) :: c :: rest) i done level allowed keys).cursor.column ≠
      0 := Nat.ne_of_gt hi
  have hpeek : (onLine (('-' : CodePoint) :: c :: rest) i done level allowed keys).cursor.peek =
      '-' := rfl
  have hpeekAt :
      (onLine (('-' : CodePoint) :: c :: rest) i done level allowed keys).cursor.peekAt 1 = c := rfl
  simp +decide [dispatch, startsPlain, hcolumn, hpeek, hpeekAt, hnext]

theorem fetchPlain_onLine {t : Text} (ht : IsWord t) (hrest : Follows rest)
    (h : Below (level + 1) keys) :
    (onLine (t ++ rest) i done (level + 1) allowed keys).fetchPlain =
      .ok (onLine rest (i + t.length) (done ++ [.scalar t true]) (level + 1) false
        (saved i done (level + 1) allowed keys)) := by
  have hscan : Plain.scan (decide (level + 1 ≠ 0)) ((-1 : Int) + 1).toNat (inline (t ++ rest) i) =
      (t, inline rest (i + t.length), false) := by
    rw [decide_eq_true (Nat.succ_ne_zero level)]
    exact plain_scan ht hrest _
  have hfetch : ∀ r, Plain.scan (decide (level + 1 ≠ 0)) ((-1 : Int) + 1).toNat
      (inline (t ++ rest) i) = r → (onLine (t ++ rest) i done (level + 1) allowed keys).fetchPlain =
        .ok (((onLine (t ++ rest) i done (level + 1) r.2.2
          (saved i done (level + 1) allowed keys)).moveTo r.2.1).push (.scalar r.1 true)) := by
    rintro _ rfl
    rw [fetchPlain, saveKey_onLine h]
    rfl
  rw [hfetch _ hscan, ← push_onLine]
  rfl

theorem step_plain {t : Text} (ht : IsWord t) (hrest : Follows rest) (hi : 0 < i) (hsp : IsGap sp)
    (h : Below (level + 1) keys) :
    Steps (onLine (sp ++ (t ++ rest)) i done (level + 1) allowed keys)
      (onLine rest (i + sp.length + t.length) (done ++ [.scalar t true]) (level + 1) false
        (saved (i + sp.length) done (level + 1) allowed (fresh (i + sp.length) keys))) := by
  have hfresh : Below (level + 1) (fresh (i + sp.length) keys) := h.filter _
  have hfetch : fetchPlain (onLine _ (i + sp.length) done (level + 1) allowed _) = _ :=
    fetchPlain_onLine ht hrest hfresh
  obtain ⟨c, r, hc, rfl | rfl⟩ := ht.start
  · have hchar := CodePoint.forall_isAsciiAlnum
      (P := fun c => c.IsInline ∧ c ≠ ' ' ∧ c ≠ '#') (by decide +kernel) c hc
    refine step_onLine hsp hchar.1 hchar.2.1 hchar.2.2 h ?_ (by simp) (by simp)
    rw [dispatch_alnum hc rfl]
    exact hfetch
  · have hnext : isBlankOrEnd c = false :=
      CodePoint.forall_isAsciiAlnum (P := fun c => isBlankOrEnd c = false) (by decide +kernel) c hc
    refine step_onLine hsp (by decide) (by decide) (by decide) h ?_ (by simp) (by simp)
    exact (dispatch_minus (Nat.add_pos_left hi _) hnext).trans hfetch

end Scalars

/-! ## Items and collections -/

/-- A text between brackets is read as some tokens, where a key may start or where none may. -/
def Reads (allowed : Bool) (text : Text) (tokens : List Token) : Prop :=
  ∀ ⦃rest sp : Text⦄ ⦃i level : Nat⦄ ⦃done : List Token⦄ ⦃keys : List (Nat × SimpleKey)⦄,
    Follows rest → IsGap sp → 0 < i → Below (level + 1) keys →
    ∃ keys', Below (level + 2) keys' ∧
      Steps (onLine (sp ++ (text ++ rest)) i done (level + 1) allowed keys)
        (onLine rest (i + sp.length + text.length) (done ++ tokens) (level + 1) false keys')

section Collections

variable {rest sp : Text} {i level : Nat} {done : List Token} {allowed : Bool}
  {keys : List (Nat × SimpleKey)}

theorem reads_quoted (t : Text) (allowed : Bool) :
    Reads allowed (t.dataString true) [.scalar t.units false] :=
  fun _ _ _ _ _ _ _ hsp _ h => ⟨_, below_saved (h.filter _), step_quoted t _ _ _ _ hsp h⟩

theorem reads_plain {t : Text} (ht : IsWord t) (allowed : Bool) :
    Reads allowed t [.scalar t true] :=
  fun _ _ _ _ _ _ hrest hsp hi h =>
    ⟨_, below_saved (h.filter _), step_plain ht hrest hi hsp h⟩

/-- A key with its value. -/
theorem reads_entry {text : Text} {tokens : List Token} (k : Text) (h : Reads false text tokens) :
    Reads true (k.dataString true ++ ": " ++ text) (keyTokens k ++ tokens) := by
  intro rest sp i level done keys hrest hsp hi hkeys
  have htext : k.dataString true ++ ": " ++ text ++ rest =
      k.dataString true ++ (':' : CodePoint) :: ([(' ' : CodePoint)] ++ (text ++ rest)) := by
    simp only [List.append_assoc]
    rfl
  obtain ⟨keys₁, hkeys₁, hkey⟩ :
      ∃ keys₁, Below (level + 1) keys₁ ∧ Steps (onLine _ i done (level + 1) true keys) _ :=
    steps_key k hsp hkeys
  obtain ⟨keys₂, hkeys₂, hvalue⟩ := h hrest (Or.inr rfl) (Nat.zero_lt_succ _) hkeys₁
  refine ⟨keys₂, hkeys₂, ?_⟩
  rw [htext]
  refine hkey.trans ?_
  have hindex : i + sp.length + (k.dataString true ++ ": " ++ text).length =
      i + sp.length + (k.dataString true).length + 1 + [(' ' : CodePoint)].length +
        text.length := by
    rw [List.length_append, List.length_append]
    show _ + (_ + 2 + _) = _ + 1 + 1 + _
    omega
  rw [hindex, ← List.append_assoc done]
  exact hvalue

theorem Reads.comma {text text' : Text} {tokens tokens' : List Token} (h : Reads true text tokens)
    (h' : Reads true text' tokens') :
    Reads true (text ++ ", " ++ text') (tokens ++ [.flowEntry] ++ tokens') := by
  intro rest sp i level done keys hrest hsp hi hkeys
  have htext : text ++ ", " ++ text' ++ rest =
      text ++ (',' : CodePoint) :: ([(' ' : CodePoint)] ++ (text' ++ rest)) := by
    simp only [List.append_assoc]
    rfl
  obtain ⟨keys₁, hkeys₁, hfirst⟩ :
      ∃ keys₁, Below (level + 2) keys₁ ∧ Steps (onLine _ i done (level + 1) true keys) _ :=
    h ⟨',', [(' ' : CodePoint)] ++ (text' ++ rest), rfl, Or.inl rfl⟩ hsp hi hkeys
  obtain ⟨keys₂, hkeys₂, hcomma⟩ := steps_comma hkeys₁
  obtain ⟨keys₃, hkeys₃, hsecond⟩ := h' hrest (Or.inr rfl) (Nat.zero_lt_succ _) hkeys₂
  refine ⟨keys₃, hkeys₃, ?_⟩
  rw [htext]
  refine hfirst.trans (hcomma.trans ?_)
  have hindex : i + sp.length + (text ++ ", " ++ text').length =
      i + sp.length + text.length + 1 + [(' ' : CodePoint)].length + text'.length := by
    rw [List.length_append, List.length_append]
    show _ + (_ + 2 + _) = _ + 1 + 1 + _
    omega
  rw [hindex, ← List.append_assoc done, ← List.append_assoc done]
  exact hsecond

/-- Items with commas between them. -/
theorem reads_separated {β : Type} {text : β → Text} {tokens : β → List Token} {ps : List β}
    (h : ∀ p ∈ ps, Reads true (text p) (tokens p)) (hne : ps ≠ []) :
    Reads true (Text.join ", " (ps.map text)) (List.intercalate [.flowEntry] (ps.map tokens)) := by
  induction ps with
  | nil => exact absurd rfl hne
  | cons p ps ih =>
    obtain ⟨hp, hps⟩ := List.forall_mem_cons.1 h
    cases ps with
    | nil => simpa [Text.join] using hp
    | cons q ps =>
      have hcomma := hp.comma (ih hps (List.cons_ne_nil _ _))
      simpa only [Text.join, List.map_cons, List.intercalate_cons_cons] using hcomma

/-- A pair of brackets with its tokens. -/
inductive Brackets : (x y : CodePoint) → (t u : Token) → Prop
  | sequence : Brackets '[' ']' .flowSequenceStart .flowSequenceEnd
  | mapping : Brackets '{' '}' .flowMappingStart .flowMappingEnd

theorem Brackets.steps_opening {x y : CodePoint} {t u : Token} (hb : Brackets x y t u)
    (hsp : IsGap sp) (h : Below level keys) :
    ∃ keys', Below (level + 1) keys' ∧
      Steps (onLine (sp ++ x :: rest) i done level allowed keys)
        (onLine rest (i + sp.length + 1) (done ++ [t]) (level + 1) true keys') := by
  cases hb with
  | sequence => exact Lexer.steps_opening (by decide) dispatch_openBracket (by simp) hsp h
  | mapping => exact Lexer.steps_opening (by decide) dispatch_openBrace (by simp) hsp h

theorem Brackets.steps_closing {x y : CodePoint} {t u : Token} (hb : Brackets x y t u)
    (h : Below (level + 2) keys) :
    ∃ keys', Below (level + 1) keys' ∧
      Steps (onLine (y :: rest) i done (level + 1) allowed keys)
        (onLine rest (i + 1) (done ++ [u]) level false keys') := by
  cases hb with
  | sequence => exact Lexer.steps_closing (by decide) dispatch_closeBracket (by simp) h
  | mapping => exact Lexer.steps_closing (by decide) dispatch_closeBrace (by simp) h

theorem Brackets.follows {x y : CodePoint} {t u : Token} (hb : Brackets x y t u) (rest : Text) :
    Follows (y :: rest) := by
  cases hb with
  | sequence => exact ⟨']', rest, rfl, Or.inr (Or.inl rfl)⟩
  | mapping => exact ⟨'}', rest, rfl, Or.inr (Or.inr rfl)⟩

/-- Nothing, or a text that is read as some tokens. -/
def Fills (text : Text) (tokens : List Token) : Prop :=
  text = [] ∧ tokens = [] ∨ Reads true text tokens

/-- Brackets around a text. -/
theorem Brackets.steps {x y : CodePoint} {t u : Token} (hb : Brackets x y t u) {text : Text}
    {tokens : List Token} (h : Fills text tokens) (hsp : IsGap sp) (hkeys : Below level keys) :
    ∃ keys', Below (level + 1) keys' ∧
      Steps (onLine (sp ++ x :: (text ++ y :: rest)) i done level allowed keys)
        (onLine rest (i + sp.length + (text.length + 2)) (done ++ t :: (tokens ++ [u])) level false
          keys') := by
  obtain ⟨keys₁, hkeys₁, hopening⟩ : ∃ keys₁, Below (level + 1) keys₁ ∧
      Steps (onLine (sp ++ x :: (text ++ y :: rest)) i done level allowed keys) _ :=
    hb.steps_opening hsp hkeys
  obtain ⟨keys₂, hkeys₂, allowed', hinside⟩ : ∃ keys₂, Below (level + 2) keys₂ ∧ ∃ allowed',
      Steps (onLine (text ++ y :: rest) (i + sp.length + 1) (done ++ [t]) (level + 1) true keys₁)
        (onLine (y :: rest) (i + sp.length + 1 + text.length) (done ++ [t] ++ tokens) (level + 1)
          allowed' keys₂) := by
    -- Between the brackets there is nothing at all, or something that fills them.
    rcases h with ⟨rfl, rfl⟩ | h
    · rw [List.append_nil]
      exact ⟨keys₁, hkeys₁.mono (Nat.le_succ _), true, Steps.refl _⟩
    · obtain ⟨keys₂, hkeys₂, hinside⟩ := h (hb.follows rest) (Or.inl rfl) (Nat.zero_lt_succ _)
        hkeys₁
      exact ⟨keys₂, hkeys₂, false, hinside⟩
  obtain ⟨keys₃, hkeys₃, hclosing⟩ : ∃ keys₃, Below (level + 1) keys₃ ∧
      Steps (onLine (y :: rest) _ _ (level + 1) allowed' keys₂) _ := hb.steps_closing hkeys₂
  have htokens : done ++ t :: (tokens ++ [u]) = done ++ [t] ++ tokens ++ [u] := by simp
  have hindex : i + sp.length + (text.length + 2) = i + sp.length + 1 + text.length + 1 := by omega
  rw [htokens, hindex]
  exact ⟨keys₃, hkeys₃, hopening.trans (hinside.trans hclosing)⟩

theorem Brackets.reads {x y : CodePoint} {t u : Token} (hb : Brackets x y t u) {text : Text}
    {tokens : List Token} (h : Fills text tokens) (allowed : Bool) :
    Reads allowed (x :: (text ++ [y])) (t :: (tokens ++ [u])) := by
  intro rest sp i level done keys _ hsp _ hkeys
  have htext : x :: (text ++ [y]) ++ rest = x :: (text ++ y :: rest) := by simp
  have hlength : (x :: (text ++ [y])).length = text.length + 2 := by simp
  rw [htext, hlength]
  exact hb.steps h hsp hkeys

theorem fills_separated {β : Type} {text : β → Text} {tokens : β → List Token} {ps : List β}
    (h : ∀ p ∈ ps, Reads true (text p) (tokens p)) :
    Fills (Text.join ", " (ps.map text)) (List.intercalate [.flowEntry] (ps.map tokens)) := by
  by_cases hne : ps = []
  · subst hne
    exact Or.inl ⟨rfl, rfl⟩
  · exact Or.inr (reads_separated h hne)

end Collections

/-! ## Documents -/

theorem fetchEnd_onLine {i : Nat} {done : List Token} {allowed : Bool}
    {keys : List (Nat × SimpleKey)} (h : Below 1 keys) :
    (onLine [] i done 0 allowed keys).fetchEnd =
      .ok (onLine [] i (done ++ [.streamEnd]) 0 false []) := by
  have hunwind : (onLine [] i done 0 allowed keys).unwind (-1) =
      onLine [] i done 0 allowed keys := by
    simp [unwind, unwindTo, onLine]
  rw [fetchEnd, hunwind, removeKey_onLine h, ← push_onLine]
  rfl

/-- The end of a line is the end of the document. -/
theorem lex_end {i : Nat} {done : List Token} {allowed : Bool} {keys : List (Nat × SimpleKey)}
    (h : Below 1 keys) (bound : Nat) :
    lex (bound + 1) (onLine [] i done 0 allowed keys) = ⟨done ++ [.streamEnd], none⟩ := by
  have hmark : ¬(nul = byteOrderMark) := by decide
  have hnext : (onLine [] i done 0 allowed keys).toNextToken = onLine [] i done 0 allowed keys :=
    toNextToken_eq (fun h => hmark h.2) rfl
  -- Keys that are still possible are forgotten without a complaint, as none is required.
  have hfetch : (onLine [] i done 0 allowed keys).fetch =
      .ok (onLine [] i (done ++ [.streamEnd]) 0 false []) := by
    have hstart : dispatch nul (onLine [] i done 0 allowed (fresh i keys)) =
        (onLine [] i done 0 allowed (fresh i keys)).fetchEnd := by
      simp [dispatch]
    have hfresh : Below 1 (fresh i keys) := h.filter _
    rw [fetch_eq_dispatch, hnext, dropStale_onLine h, ← fetchEnd_onLine hfresh, ← hstart]
    simp only [bind, Except.bind, unwind_onLine]
    rfl
  have hhead : (onLine [] i (done ++ [Token.streamEnd]) 0 false []).reversed.head? =
      some .streamEnd := by
    show (done ++ [Token.streamEnd]).reverse.head? = _
    rw [List.reverse_append]
    rfl
  rw [lex_of_fetch hfetch, if_pos hhead]
  show Lexed.mk (done ++ [Token.streamEnd]).reverse.reverse none = _
  rw [List.reverse_reverse]

/-- A line in brackets is read as its tokens. -/
theorem lexed_brackets {x y : CodePoint} {t u : Token} (hb : Brackets x y t u) {text : Text}
    {tokens : List Token} (h : Fills text tokens) (hinline : ∀ c ∈ text, c.IsInline) :
    Lexed.ofText (x :: (text ++ [y])) = ⟨t :: (tokens ++ [u]) ++ [.streamEnd], none⟩ := by
  obtain ⟨keys, hkeys, n, hn, hlex⟩ : ∃ keys, Below 1 keys ∧
      Steps (onLine ([] ++ x :: (text ++ [y])) 0 [] 0 true [])
        (onLine [] (0 + 0 + (text.length + 2)) ([] ++ t :: (tokens ++ [u])) 0 false keys) :=
    hb.steps h (Or.inl rfl) (fun k hk => nomatch hk)
  have hallowed : (x :: (text ++ [y])).all isAllowed = true := by
    have hchar : ∀ c : CodePoint, c.IsInline → isAllowed c = true := fun c hc =>
      CodePoint.forall_isInline (P := fun c => isAllowed c = true) (by decide +kernel) hc
    have hx : isAllowed x = true ∧ isAllowed y = true := by
      cases hb with
      | sequence => exact ⟨by decide, by decide⟩
      | mapping => exact ⟨by decide, by decide⟩
    rw [List.all_eq_true]
    refine List.forall_mem_cons.2 ⟨hx.1, fun c hc => ?_⟩
    rcases List.mem_append.1 hc with hc | hc
    · exact hchar c (hinline c hc)
    · exact List.mem_singleton.1 hc ▸ hx.2
  have hn : n ≤ text.length + 2 := by
    have : n + 0 ≤ 0 + 0 + (text.length + 2) := hn
    omega
  -- No step takes less than a character, so the bound is not used up.
  have hbound : (x :: (text ++ [y])).length + 2 = (text.length + 2 - n + 1) + 1 + n := by
    simp only [List.length_cons, List.length_append, List.length_nil]
    omega
  rw [Lexed.ofText, if_pos hallowed, hbound]
  exact (hlex _).trans (lex_end hkeys _)

end IdlBridge.Yaml.Lexer
