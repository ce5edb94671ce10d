import IdlBridge.Text.Alphabet
import IdlBridge.Text.Basic
import Mathlib.Data.List.DropRight

/-! # Texts and lists of texts

    Of ASCII code points there are few enough that what is claimed of all letters or all digits can
    be decided one by one.  Of texts: where they are cut, what trimming leaves of them, and what a
    list of texts has after a text has been added to it unless it is there.
-/

namespace IdlBridge.CodePoint

/-- What is decided of all code points below `0x80`. -/
theorem forall_ascii {P : CodePoint → Prop}
    (h : ∀ n, (hn : n < 128) → P ⟨n, Nat.lt_trans hn (by decide)⟩) (c : CodePoint)
    (hc : c.toNat < 128) : P c :=
  h c.toNat hc

theorem toNat_lt_of_within {c lo hi : CodePoint} (h : c.within lo hi = true) :
    c.toNat ≤ hi.toNat := by
  rw [within, Bool.and_eq_true, decide_eq_true_eq, decide_eq_true_eq] at h
  exact h.2

/-- What is decided of the ASCII digits. -/
theorem forall_isAsciiDigit {P : CodePoint → Prop}
    (h : ∀ n, (hn : n < 128) → isAsciiDigit ⟨n, Nat.lt_trans hn (by decide)⟩ = true →
      P ⟨n, Nat.lt_trans hn (by decide)⟩) (c : CodePoint) (hc : c.isAsciiDigit = true) : P c :=
  forall_ascii (P := fun c => c.isAsciiDigit = true → P c) h c
    (Nat.lt_of_le_of_lt (toNat_lt_of_within hc) (by decide)) hc

/-- What is decided of the ASCII letters. -/
theorem forall_isAsciiLetter {P : CodePoint → Prop}
    (h : ∀ n, (hn : n < 128) → isAsciiLetter ⟨n, Nat.lt_trans hn (by decide)⟩ = true →
      P ⟨n, Nat.lt_trans hn (by decide)⟩) (c : CodePoint) (hc : c.isAsciiLetter = true) : P c := by
  refine forall_ascii (P := fun c => c.isAsciiLetter = true → P c) h c ?_ hc
  rcases Bool.or_eq_true_iff.1 hc with hc | hc
  · exact Nat.lt_of_le_of_lt (toNat_lt_of_within hc) (by decide)
  · exact Nat.lt_of_le_of_lt (toNat_lt_of_within hc) (by decide)

theorem lt_of_isAsciiAlnum {c : CodePoint} (h : c.isAsciiAlnum = true) : c.toNat < 128 := by
  simp only [isAsciiAlnum, isAsciiLetter, Bool.or_eq_true] at h
  rcases h with (h | h) | h <;> exact Nat.lt_of_le_of_lt (toNat_lt_of_within h) (by decide)

/-- What is decided of the ASCII letters and digits. -/
theorem forall_isAsciiAlnum {P : CodePoint → Prop}
    (h : ∀ n, (hn : n < 128) → isAsciiAlnum ⟨n, Nat.lt_trans hn (by decide)⟩ = true →
      P ⟨n, Nat.lt_trans hn (by decide)⟩) (c : CodePoint) (hc : c.isAsciiAlnum = true) : P c :=
  forall_ascii (P := fun c => c.isAsciiAlnum = true → P c) h c (lt_of_isAsciiAlnum hc) hc

end IdlBridge.CodePoint

namespace IdlBridge.Text

/-! ## Cutting texts -/

/-- What follows the last separator is the part behind it. -/
theorem afterLast_append {c : CodePoint} {pre part : Text} (h : c ∉ part) :
    afterLast c (pre ++ c :: part) = part := by
  have hreverse : (pre ++ c :: part).reverse = part.reverse ++ c :: pre.reverse := by simp
  have hpart : ∀ x ∈ part.reverse, (x != c) = true := by
    intro x hx
    have hne : x ≠ c := fun hxc => h (hxc ▸ List.mem_reverse.1 hx)
    simpa using hne
  unfold afterLast
  rw [hreverse, List.takeWhile_append_of_pos hpart, List.takeWhile_cons_of_neg (by simp),
    List.append_nil, List.reverse_reverse]

theorem cut?_eq_none {c : CodePoint} {t : Text} : cut? c t = none ↔ c ∉ t := by
  unfold cut?
  split
  · next h => simp [h]
  · next h => simp [h]

/-- A text is cut at the first separator. -/
theorem cut?_append {c : CodePoint} {pre : Text} (h : c ∉ pre) (rest : Text) :
    cut? c (pre ++ c :: rest) = some (pre, rest) := by
  have hpre : ∀ x ∈ pre, (x != c) = true := by
    intro x hx
    have hne : x ≠ c := fun hxc => h (hxc ▸ hx)
    simpa using hne
  rw [cut?, if_pos (by simp), List.takeWhile_append_of_pos hpre,
    List.dropWhile_append_of_pos hpre, List.takeWhile_cons_of_neg (by simp),
    List.dropWhile_cons_of_neg (by simp), List.append_nil, List.drop_one, List.tail_cons]

theorem cut?_eq_some {c : CodePoint} {t pre rest : Text} :
    cut? c t = some (pre, rest) ↔ t = pre ++ c :: rest ∧ c ∉ pre := by
  constructor
  · intro h
    by_cases hc : c ∈ t
    · obtain ⟨pre', rest', rfl, hpre'⟩ := List.eq_append_cons_of_mem hc
      rw [cut?_append hpre'] at h
      cases h
      exact ⟨rfl, hpre'⟩
    · rw [cut?_eq_none.2 hc] at h
      cases h
  · rintro ⟨rfl, hpre⟩
    exact cut?_append hpre rest

theorem dropLeading_eq_self {c : CodePoint} {t : Text} (h : t.head? ≠ some c) :
    dropLeading c t = t := by
  cases t with
  | nil => rfl
  | cons d t =>
    unfold dropLeading
    rw [List.dropWhile_cons_of_neg]
    intro hd
    exact h (congrArg some (beq_iff_eq.1 hd))

/-! ## Replacing pairs of characters -/

theorem replacePair_pair (a b : CodePoint) (new rest : Text) :
    replacePair a b new (a :: b :: rest) = new ++ replacePair a b new rest := by
  rw [replacePair, if_pos ⟨rfl, rfl⟩]

theorem replacePair_cons_of_ne {a b c : CodePoint} (h : c ≠ a) (new rest : Text) :
    replacePair a b new (c :: rest) = c :: replacePair a b new rest := by
  cases rest with
  | nil => rfl
  | cons d rest => rw [replacePair, if_neg fun hc => h hc.1]

theorem replacePair_cons_cons_of_ne {a b d : CodePoint} (h : d ≠ b) (new rest : Text) :
    replacePair a b new (a :: d :: rest) = a :: replacePair a b new (d :: rest) := by
  rw [replacePair, if_neg fun hc => h hc.2]

/-! ## Joining texts -/

theorem join_cons_cons (sep v w : Text) (ws : List Text) :
    join sep (v :: w :: ws) = v ++ (sep ++ join sep (w :: ws)) := by
  rw [join, List.intercalate_cons_cons, List.append_assoc]
  rfl

/-- The first text, and each of the others behind a separator. -/
theorem join_cons (sep v : Text) (ws : List Text) :
    join sep (v :: ws) = v ++ ws.flatMap (sep ++ ·) := by
  induction ws generalizing v with
  | nil => simp [join]
  | cons w ws ih => rw [join_cons_cons, ih, List.flatMap_cons, List.append_assoc]

/-- What follows the last text follows the joined texts. -/
theorem join_concat_append (sep : Text) (ws : List Text) (v rest : Text) :
    join sep (ws ++ [v ++ rest]) = join sep (ws ++ [v]) ++ rest := by
  cases ws with
  | nil => simp [join]
  | cons w ws => simp [join_cons]

/-- A separator in a text is the last one or stands in front of it. -/
theorem eq_or_prefix_of_append_cons {c : CodePoint} {s t front back : Text} (hc : c ∉ t)
    (h : s ++ c :: t = front ++ c :: back) : front = s ∨ front ++ [c] <+: s := by
  rcases List.append_eq_append_iff.1 h with ⟨between, rfl, hback⟩ | ⟨between, rfl, hback⟩
  · cases between with
    | nil => exact .inl (List.append_nil s)
    | cons d between =>
      obtain ⟨rfl, rfl⟩ := List.cons.inj hback
      exact absurd (List.mem_append_right between List.mem_cons_self) hc
  · cases between with
    | nil => exact .inl (List.append_nil front).symm
    | cons d between =>
      obtain ⟨rfl, -⟩ := List.cons.inj hback
      exact .inr ⟨between, by rw [List.append_assoc]; rfl⟩

/-- What has no separator in it occurs on one side of the separator. -/
theorem infix_append_cons {c : CodePoint} {part s t : Text} (hc : c ∉ part)
    (h : part <:+: s ++ c :: t) : part <:+: s ∨ part <:+: t := by
  obtain ⟨front, back, heq⟩ := h
  rcases List.append_eq_append_iff.1 heq with ⟨between, rfl, -⟩ | ⟨between, hfront, hback⟩
  · exact .inl ⟨front, between, rfl⟩
  -- The separator stands behind the part, or in front of its end.
  cases between with
  | nil =>
    rw [List.append_nil] at hfront
    exact .inl ⟨front, [], by rw [List.append_nil, hfront]⟩
  | cons d between =>
    obtain ⟨rfl, rfl⟩ := List.cons.inj hback
    rcases List.append_eq_append_iff.1 hfront with ⟨x, -, rfl⟩ | ⟨x, -, hx⟩
    · exact absurd (List.mem_append_right x List.mem_cons_self) hc
    · cases x with
      | nil =>
        rw [List.nil_append] at hx
        exact absurd (hx ▸ List.mem_cons_self) hc
      | cons e x =>
        obtain ⟨rfl, rfl⟩ := List.cons.inj hx
        exact .inr ⟨x, back, rfl⟩

/-! ## Trimming -/

section Trimming

variable {p : CodePoint → Bool}

theorem dropEndWhile_prefix_self (t : Text) : dropEndWhile p t <+: t :=
  List.rdropWhile_prefix p t

theorem trim_infix (t : Text) : trim p t <:+: t :=
  (dropEndWhile_prefix_self _).isInfix.trans (List.dropWhile_suffix p).isInfix

theorem trim_eq_nil {t : Text} : trim p t = [] ↔ ∀ c ∈ t, p c = true := by
  have hend : trim p t = [] ↔ ∀ c ∈ t.dropWhile p, p c = true := List.rdropWhile_eq_nil_iff
  rw [hend]
  constructor
  · intro h c hc
    rw [← List.takeWhile_append_dropWhile (p := p) (l := t), List.mem_append] at hc
    exact hc.elim List.mem_takeWhile_imp (h c)
  · exact fun h c hc => h c ((List.dropWhile_suffix p).subset hc)

theorem trim_dropWhile (t : Text) : trim p (t.dropWhile p) = trim p t := by
  rw [trim, trim, List.dropWhile_idempotent]

/-- Neither end of a text is to be dropped. -/
def Trimmed (p : CodePoint → Bool) (t : Text) : Prop :=
  (∀ c ∈ t.head?, p c = false) ∧ ∀ c ∈ t.getLast?, p c = false

theorem not_of_mem_head?_dropWhile {t : Text} {c : CodePoint} (hc : c ∈ (t.dropWhile p).head?) :
    p c = false := by
  have h := List.head?_dropWhile_not p t
  rw [Option.mem_def.1 hc] at h
  exact h

theorem trimmed_trim (t : Text) : Trimmed p (trim p t) := by
  constructor
  · intro c hc
    refine not_of_mem_head?_dropWhile (t := t) ?_
    obtain ⟨rest, hrest⟩ := dropEndWhile_prefix_self (p := p) (t.dropWhile p)
    rw [Option.mem_def] at hc ⊢
    rw [← hrest, List.head?_append, show dropEndWhile p (t.dropWhile p) = trim p t from rfl, hc]
    rfl
  · intro c hc
    rw [trim, dropEndWhile, List.getLast?_reverse] at hc
    exact not_of_mem_head?_dropWhile hc

theorem Trimmed.trim_eq {t : Text} (h : Trimmed p t) : trim p t = t := by
  have hfront : t.dropWhile p = t := by
    cases t with
    | nil => rfl
    | cons c t => exact List.dropWhile_cons_of_neg (by simp [h.1 c rfl])
  have hend : t.reverse.dropWhile p = t.reverse := by
    have hlast := h.2
    rw [← List.head?_reverse] at hlast
    cases hrev : t.reverse with
    | nil => rfl
    | cons c r => exact List.dropWhile_cons_of_neg (by simp [hlast c (by rw [hrev]; rfl)])
  rw [trim, hfront, dropEndWhile, hend, List.reverse_reverse]

end Trimming

/-! ## Texts without repetition -/

theorem mem_insertNew {ts : List Text} {t u : Text} : u ∈ insertNew ts t ↔ u ∈ ts ∨ u = t := by
  unfold insertNew
  split
  · next hold =>
    exact ⟨Or.inl, fun h => h.elim id fun h => h ▸ hold⟩
  · simp

theorem nodup_insertNew {ts : List Text} (h : ts.Nodup) (t : Text) : (insertNew ts t).Nodup := by
  unfold insertNew
  split
  · exact h
  · next hnew =>
    refine List.nodup_append.2 ⟨h, by simp, fun a ha b hb hab => hnew ?_⟩
    rw [← List.mem_singleton.1 hb, ← hab]
    exact ha

theorem mem_foldl_insertNew {ts us : List Text} {t : Text} :
    t ∈ us.foldl insertNew ts ↔ t ∈ ts ∨ t ∈ us := by
  induction us generalizing ts with
  | nil => simp
  | cons u rest ih => rw [List.foldl_cons, ih, mem_insertNew, List.mem_cons, or_assoc]

theorem nodup_foldl_insertNew {ts : List Text} (h : ts.Nodup) (us : List Text) :
    (us.foldl insertNew ts).Nodup := by
  induction us generalizing ts with
  | nil => exact h
  | cons u rest ih => exact ih (nodup_insertNew h u)

end IdlBridge.Text
