import IdlBridge.Proofs.Proto.Grammar
import IdlBridge.Proofs.Proto.Stages

/-! # Reading constants and options

    The parser for constants reads every spelling of a constant back.  Constants nest, and the
    parser is bounded by the number of atoms in front of it, so the induction carries the claim for
    every bound that is no smaller than the number of atoms of the constant.  Behind a constant
    there is no string, since adjacent string literals make up one text.
-/

namespace IdlBridge.Proto.Parser

open Idl Idl.Parser

variable {rest us : List Atom}

theorem takes_keyword (k : Word) :
    Takes (keyword k) (.keyword k :: rest) rest (·.Is (.keyword k)) :=
  takes_expect rfl

theorem takes_accept_keyword (k : Word) :
    Takes (accept (.keyword k)) (.keyword k :: rest) rest (· = true) :=
  takes_accept rfl

theorem takes_bound : Takes bound us us (· = us.length + 1) :=
  fun s hs => ⟨_, s, rfl, by rw [hs.length_eq], hs⟩

/-! ## Texts -/

/-- The tokens of string literals, in front of those that follow. -/
theorem exists_strings {parts : List Text} {ts : List Token}
    (h : List.Forall₂ Token.Is ts (parts.map .string ++ rest)) :
    ∃ strings behind, ts = strings ++ behind ∧ List.Forall₂ Token.Is behind rest ∧
      strings.map (·.value) = parts ∧ ∀ t ∈ strings, t.kind = .string ∧ t.trailing = [] := by
  induction parts generalizing ts with
  | nil => exact ⟨[], ts, rfl, h, rfl, by simp⟩
  | cons part parts ih =>
    cases h with
    | @cons t _ ts _ ht hts =>
      obtain ⟨strings, behind, rfl, hbehind, rfl, hstrings⟩ := ih hts
      refine ⟨t :: strings, behind, rfl, hbehind, ?_, ?_⟩
      · rw [List.map_cons, ht.value]
        rfl
      · exact List.forall_mem_cons.2 ⟨⟨ht.kind, ht.trailing⟩, hstrings⟩

/-- Adjacent string literals end in front of another token. -/
theorem takes_strings {parts : List Text} (h : nextKind rest ≠ .string) :
    Takes strings (parts.map .string ++ rest) rest (· = parts.flatten) := by
  intro s hs
  obtain ⟨ahead, eof, last⟩ := s
  obtain ⟨hahead, heof, hlast⟩ := hs
  obtain ⟨strings, behind, rfl, hbehind, rfl, hstrings⟩ := exists_strings hahead
  have hnone : behind.takeWhile (fun t => t.kind = .string) = [] := by
    cases hbehind with
    | nil => rfl
    | cons ht _ => exact List.takeWhile_cons_of_neg (by simpa [ht.kind] using h)
  -- The literals are all the strings ahead, as another token is behind them.
  have hparts : (strings ++ behind).takeWhile (fun t => t.kind = .string) = strings := by
    rw [List.takeWhile_append_of_pos (fun t ht => by simp [(hstrings t ht).1]), hnone,
      List.append_nil]
  have hshows : Stream.Shows ⟨behind, eof, strings.getLastD last⟩ rest := by
    refine ⟨hbehind, heof, ?_⟩
    rcases List.eq_nil_or_concat strings with rfl | ⟨front, t, rfl⟩
    · exact hlast
    · rw [List.concat_eq_append] at hstrings ⊢
      show (List.getLastD (front ++ [t]) last).trailing = []
      rw [List.getLastD_eq_getLast?, List.getLast?_concat]
      exact (hstrings t (by simp)).2
  refine ⟨(strings.map (·.value)).flatten, ⟨behind, eof, strings.getLastD last⟩, ?_, rfl, hshows⟩
  unfold Parser.strings
  show Except.ok (_, _) = _
  simp only [hparts, List.drop_left]

/-! ## Constants -/

/-- A constant starts with none of the delimiters that stand behind one. -/
theorem nextKind_constant {v : Value} (h : ConstantWritten v us) :
    nextKind us ≠ .eof ∧
      ∀ d, d ≠ .leftBrace → d ≠ .leftBracket → nextKind us ≠ .delimiter d := by
  cases h with
  | bool b => exact ⟨kind_word_ne _ rfl, fun _ _ _ => kind_word_ne _ rfl⟩
  | int _ => simp
  | float _ _ => simp
  | @text parts hparts =>
    obtain ⟨part, rest, rfl⟩ := List.exists_cons_of_ne_nil hparts
    simp
  | name _ _ => exact ⟨kind_word_ne _ rfl, fun _ _ _ => kind_word_ne _ rfl⟩
  | list _ _ =>
    refine ⟨by simp, ?_⟩
    intro d _ hbracket
    simpa using hbracket.symm
  | map _ _ _ =>
    refine ⟨by simp, ?_⟩
    intro d hbrace _
    simpa using hbrace.symm

/-- The rounds of the loop over the items of a list. -/
theorem loops_items {value : Parser Value} {items : List ListItem}
    (hwritten : ∀ i ∈ items, ConstantWritten i.value i.constant)
    (htakes : ∀ i ∈ items, ∀ rest, nextKind rest ≠ .string →
      Takes value (i.constant ++ rest) rest (· = i.value))
    (hapart : items.IsChain ListItem.Apart) (before : List Value) :
    Loops (isAt .rightBracket)
      (fun xs => do
        let v ← value
        let _ ← accept (.delimiter .comma)
        return xs ++ [v])
      before (items.flatMap ListItem.atoms ++ .mark .rightBracket :: rest)
      (before ++ items.map ListItem.value) (.mark .rightBracket :: rest) := by
  induction items generalizing before with
  | nil =>
    rw [List.map_nil, List.append_nil]
    exact .stop takes_isAt
  | cons i items ih =>
    obtain ⟨hi, hitems⟩ := List.forall_mem_cons.1 hwritten
    obtain ⟨hitake, hitemsTake⟩ := List.forall_mem_cons.1 htakes
    have hrest := ih hitems hitemsTake hapart.of_cons (before ++ [i.value])
    rw [List.append_assoc] at hrest
    rw [List.flatMap_cons, List.append_assoc]
    obtain ⟨hne, hdelimiter⟩ := nextKind_constant hi
    -- What follows without a comma is the bracket or the start of the next item.
    have hfollow : i.comma = false →
        nextKind (items.flatMap ListItem.atoms ++ .mark .rightBracket :: rest) ≠ .string ∧
        nextKind (items.flatMap ListItem.atoms ++ .mark .rightBracket :: rest) ≠
          .delimiter .comma := by
      intro hcomma
      cases items with
      | nil => simp
      | cons j items =>
        obtain ⟨hjne, hjdelimiter⟩ := nextKind_constant (hitems j List.mem_cons_self)
        have hj : ListItem.Apart i j := (List.isChain_cons_cons.1 hapart).1
        rw [List.flatMap_cons, ListItem.atoms, List.append_assoc, List.append_assoc,
          nextKind_append hjne]
        refine ⟨?_, hjdelimiter _ (by simp) (by simp)⟩
        rcases hj with hj | hj
        · rw [hcomma] at hj
          cases hj
        · exact hj
    refine Loops.round_of_starts (S := fun k => k ≠ .delimiter .rightBracket ∧ k ≠ .eof) ?_ ?_ ?_ ?_
      hrest
    · intro us hus
      exact takes_isAt_of_ne hus.1 hus.2
    · intro heof
      exact heof.2 rfl
    · rw [ListItem.atoms, nextKind_append hne]
      exact ⟨hdelimiter _ (by simp) (by simp), hne⟩
    · cases hcomma : i.comma with
      | true =>
        simp only [ListItem.atoms, hcomma, if_true, List.append_assoc, List.singleton_append]
        refine (hitake _ (by simp)).bind_eq ?_
        exact (takes_accept_delimiter .comma).bind_eq (takes_pure rfl)
      | false =>
        obtain ⟨hstring, hcommaKind⟩ := hfollow hcomma
        simp only [ListItem.atoms, hcomma, Bool.false_eq_true, if_false, List.append_nil]
        refine (hitake _ hstring).bind_eq ?_
        exact (takes_accept_of_ne hcommaKind).bind_eq (takes_pure rfl)

/-- A key that has not been given is added at the end. -/
theorem collect_of_ne {es : Value.Entries} {key : Text} {v : Value}
    (h : ∀ e ∈ es, e.1 ≠ .text key) : collect es key v = es ++ [(.text key, v)] := by
  have hnone : es.get? (.text key) = none := by
    rw [Value.Entries.get?, Option.map_eq_none_iff, List.find?_eq_none]
    exact fun e he hkey => h e he (Value.sameKey_text.1 hkey)
  rw [collect, hnone]

/-- What follows an entry of an aggregate. -/
def BehindEntry (k : Kind Word) : Prop :=
  k ≠ .string ∧ k ≠ .delimiter .comma ∧ k ≠ .delimiter .semicolon

/-- One round of the loop over the entries of an aggregate. -/
theorem takes_entry {value : Parser Value} {es : Value.Entries} {e : AggregateEntry}
    (hwritten : ConstantWritten e.value e.constant)
    (htakes : ∀ rest, nextKind rest ≠ .string →
      Takes value (e.constant ++ rest) rest (· = e.value))
    (hseparator : Separator e.separator) (hnew : ∀ f ∈ es, f.1 ≠ .text e.key)
    (hrest : BehindEntry (nextKind rest)) :
    Takes (entryRound value es) (e.atoms ++ rest) rest (· = es ++ [e.entry]) := by
  obtain ⟨key, colon, v, constant, separator⟩ := e
  obtain ⟨hstring, hcomma, hsemicolon⟩ := hrest
  obtain ⟨hne, hdelimiter⟩ := nextKind_constant hwritten
  simp only [AggregateEntry.atoms, List.cons_append, List.append_assoc]
  have hcollect : collect es key v = es ++ [(.text key, v)] := collect_of_ne hnew
  have hend : Takes (entryRest value es key) (constant ++ (separator ++ rest)) rest
      (· = es ++ [(.text key, v)]) := by
    refine (htakes _ ?_).bind_eq ?_
    · exact hseparator.next (P := (· ≠ .string)) (by simp) (by simp) hstring
    cases hseparator with
    | none =>
      refine (takes_accept_of_ne hcomma).bind_eq ?_
      exact (takes_accept_of_ne hsemicolon).bind_eq (takes_pure hcollect)
    | comma => exact (takes_accept_delimiter .comma).bind_eq (takes_pure hcollect)
    | semicolon =>
      refine (takes_accept_of_ne (by simp)).bind_eq ?_
      exact (takes_accept_delimiter .semicolon).bind_eq (takes_pure hcollect)
  refine (takes_name key).bind_eq ?_
  cases colon with
  | true => exact (takes_accept_delimiter .colon).bind_eq hend
  | false =>
    -- A constant does not start with a colon, so none is accepted where it is left out.
    have hcolon : nextKind (constant ++ (separator ++ rest)) ≠ .delimiter .colon := by
      rw [nextKind_append hne]
      exact hdelimiter _ (by simp) (by simp)
    exact (takes_accept_of_ne hcolon).bind_eq hend

/-- The loop over the entries of an aggregate. -/
theorem takes_entries {value : Parser Value} {entries : List AggregateEntry}
    (hwritten : ∀ e ∈ entries, ConstantWritten e.value e.constant)
    (htakes : ∀ e ∈ entries, ∀ rest, nextKind rest ≠ .string →
      Takes value (e.constant ++ rest) rest (· = e.value))
    (hseparators : ∀ e ∈ entries, Separator e.separator)
    (hkeys : (entries.map AggregateEntry.key).Nodup) :
    Takes (aggregate value)
      (.mark .leftBrace :: (entries.flatMap AggregateEntry.atoms ++ .mark .rightBrace :: rest)) rest
      (· = .map (entries.map AggregateEntry.entry)) := by
  have heach : Each (fun e us => e ∈ entries ∧ us = e.atoms) entries
      (entries.flatMap AggregateEntry.atoms) := Each.of_flatMap fun e he => ⟨he, rfl⟩
  refine (takes_delimiter .leftBrace).bind_eq ?_
  refine (takes_each (F := BehindEntry) heach (fun before => before.map AggregateEntry.entry)
    ?_ ?_ ?_).bind_eq ((takes_delimiter .rightBrace).bind_eq (takes_pure rfl))
  · intro e u hu
    obtain ⟨he, rfl⟩ := hu
    have hname : (nextKind e.atoms).isName = true := isName_word e.key
    have hne : ∀ k : Kind Word, k.isName = false → nextKind e.atoms ≠ k := by
      intro k hk hkind
      rw [hkind, hk] at hname
      cases hname
    exact ⟨⟨hne _ rfl, hne _ rfl, hne _ rfl⟩, hne _ rfl, hne _ rfl⟩
  · simp [BehindEntry]
  · intro before e after hsplit u vs hu hvs
    obtain ⟨he, rfl⟩ := hu
    -- The keys differ, so each entry is added behind those before it.
    have hnew : ∀ f ∈ before.map AggregateEntry.entry, f.1 ≠ .text e.key := by
      intro f hf heq
      obtain ⟨e', he', rfl⟩ := List.mem_map.1 hf
      have hkey : e'.key = e.key := by
        injection heq
      rw [hsplit, List.map_append, List.nodup_append] at hkeys
      exact hkeys.2.2 e'.key (List.mem_map_of_mem he') e.key List.mem_cons_self hkey
    rw [List.map_append]
    exact takes_entry (hwritten e he) (htakes e he) (hseparators e he) hnew hvs

/-- A word is a constant, whether it is a keyword or not. -/
theorem takes_constant_word {w : Text} {bound : Nat} (hbound : 0 < bound) :
    Takes (constant bound) (.word w :: rest) rest (· = constantOfName w) := by
  obtain ⟨bound, rfl⟩ := Nat.exists_eq_succ_of_ne_zero (Nat.ne_of_gt hbound)
  refine takes_peek.bind ?_
  intro t ht
  have hend : Takes (do
      let _ ← advance
      return constantOfName t.value) (.word w :: rest) rest (· = constantOfName w) := by
    refine takes_advance.bind ?_
    intro _ _
    apply takes_pure
    rw [ht.value]
    rfl
  have hname : t.kind.isName = true := by
    rw [ht.kind]
    exact isName_word w
  rcases Kind.eq_of_isName hname with hkind | ⟨k, hkind⟩
  · rw [hkind]
    exact hend
  · rw [hkind]
    exact hend

theorem takes_constant_number {w : Text} {v : Value} {bound : Nat} (hbound : 0 < bound)
    (h : ∀ t : Token, t.value = w → Takes (numberOf t) rest rest (· = v)) :
    Takes (constant bound) (.number w :: rest) rest (· = v) := by
  obtain ⟨bound, rfl⟩ := Nat.exists_eq_succ_of_ne_zero (Nat.ne_of_gt hbound)
  refine takes_peek.bind ?_
  intro t ht
  rw [ht.kind]
  exact takes_advance.bind fun _ _ => h t ht.value

theorem takes_constant {v : Value} (h : ConstantWritten v us) :
    ∀ {bound rest}, us.length ≤ bound → nextKind rest ≠ .string →
      Takes (constant bound) (us ++ rest) rest (· = v) := by
  -- The parser looks at the kind of the next token, which is that of the first atom.
  induction h with
  | bool b =>
    intro bound rest hbound _
    have hvalue : constantOfName (if b then "true" else "false") = .bool b := by
      cases b <;> rfl
    rw [← hvalue]
    exact takes_constant_word hbound
  | @int i w hint =>
    intro bound rest hbound _
    apply takes_constant_number hbound
    intro t ht
    unfold numberOf
    rw [ht, hint]
    exact takes_pure rfl
  | @float x w hint hfloat =>
    intro bound rest hbound _
    apply takes_constant_number hbound
    intro t ht
    unfold numberOf
    rw [ht, hint]
    simp only [hfloat]
    exact takes_pure rfl
  | @text parts hparts =>
    intro bound rest hbound hnext
    obtain ⟨part, parts, rfl⟩ := List.exists_cons_of_ne_nil hparts
    obtain ⟨bound, rfl⟩ := Nat.exists_eq_succ_of_ne_zero (Nat.ne_zero_of_lt hbound)
    refine takes_peek.bind ?_
    intro t ht
    rw [ht.kind]
    exact (@takes_strings rest (part :: parts) hnext).bind_eq (takes_pure rfl)
  | @name w htrue hfalse =>
    intro bound rest hbound _
    have hvalue : constantOfName w = .text w := by
      unfold constantOfName
      rw [if_neg htrue, if_neg hfalse]
    rw [← hvalue]
    exact takes_constant_word hbound
  | @list items hvalues hapart ih =>
    intro bound rest hbound _
    obtain ⟨bound, rfl⟩ := Nat.exists_eq_succ_of_ne_zero (Nat.ne_zero_of_lt hbound)
    rw [List.cons_append, List.append_assoc, List.singleton_append]
    refine takes_peek.bind ?_
    intro t ht
    rw [ht.kind]
    refine (takes_delimiter .leftBracket).bind_eq ?_
    have hitem : ∀ i ∈ items, ∀ rest, nextKind rest ≠ .string →
        Takes (constant bound) (i.constant ++ rest) rest (· = i.value) := by
      intro i hi rest hrest
      apply ih i hi ?_ hrest
      -- The brackets leave enough of the bound for every item.
      have hlength : i.atoms.length ≤ (items.flatMap ListItem.atoms).length := length_le_flatMap hi
      rw [ListItem.atoms] at hlength
      simp only [List.length_cons, List.length_append] at hlength hbound
      omega
    refine (loops_items hvalues hitem hapart []).repeatUntil.bind_eq ?_
    exact (takes_delimiter .rightBracket).bind_eq (takes_pure rfl)
  | @map entries hvalues hseparators hkeys ih =>
    intro bound rest hbound _
    obtain ⟨bound, rfl⟩ := Nat.exists_eq_succ_of_ne_zero (Nat.ne_zero_of_lt hbound)
    rw [List.cons_append, List.append_assoc, List.singleton_append]
    refine takes_peek.bind ?_
    intro t ht
    rw [ht.kind]
    apply takes_entries hvalues ?_ hseparators hkeys
    intro e he rest hrest
    apply ih e he ?_ hrest
    have hlength : e.atoms.length ≤ (entries.flatMap AggregateEntry.atoms).length :=
      length_le_flatMap he
    rw [AggregateEntry.atoms] at hlength
    simp only [List.length_cons, List.length_append] at hlength hbound
    omega

end IdlBridge.Proto.Parser
