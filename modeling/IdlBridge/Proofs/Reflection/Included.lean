import IdlBridge.Proofs.Collections
import IdlBridge.Proofs.Files
import IdlBridge.Proofs.Reflection.FirstDeclared
import IdlBridge.Proofs.Reflection.Reflected

/-! # Which included files count

    A Thrift file is loaded with everything that its include lines lead to.  A source keeps its
    includes in a map from aliases, and the alias of a line is made from the name of the included
    file alone: of two lines with one alias, the later one counts.  What the earlier one leads to is
    loaded and then forgotten, with everything that is reached through it only.
-/

namespace IdlBridge.Reflection

open Traversal

namespace Place

variable {place : Place}

/-- The Thrift source that lies at a place. -/
def document? (place : Place) (file : List Text) : Option Thrift.Document :=
  ((place.disk.contents? file).bind Utf8.readFile?).bind fun t =>
    (Thrift.Document.ofText? t).toOption

/-- The place that an include line of the source at `file` leads to: beside that source, or else in
    the first include folder that has it. -/
def target? (place : Place) (file : List Text) (name : Text) : Option (List Text) :=
  (place.candidates ⟨true, file.dropLast⟩ name).findSome? place.disk.find?

/-- An include line of the source at `file` leads to `other`. -/
def Includes (place : Place) (file other : List Text) : Prop :=
  ∃ d ∈ place.document? file, ∃ name ∈ d.includes, place.target? file name = some other

/-- Where the last of the lines with an alias leads to, those apart that lead nowhere. -/
def lastTarget? (place : Place) (file : List Text) (lines : List Text) (key : Text) :
    Option (List Text) :=
  lines.reverse.findSome? fun name =>
    if aliasOf name = key then place.target? file name else none

/-- The include map of the source at `file` has `other`: the last line of some alias leads there. -/
def Keeps (place : Place) (file other : List Text) : Prop :=
  ∃ d ∈ place.document? file, ∃ key, place.lastTarget? file d.includes key = some other

/-- The source at `file` declares a struct of the name. -/
def DeclaresStruct (place : Place) (file : List Text) (name : Text) : Prop :=
  ∃ d ∈ place.document? file, ∃ s ∈ d.structs, s.name = name

/-- The source at `file` declares an enumeration of the name. -/
def DeclaresEnum (place : Place) (file : List Text) (name : Text) : Prop :=
  ∃ d ∈ place.document? file, ∃ e ∈ d.enums, e.name = name

/-- Lines of the source at `file` with one alias lead to one file. -/
def Unambiguous (place : Place) (file : List Text) : Prop :=
  ∀ d ∈ place.document? file, ∀ a ∈ d.includes, ∀ b ∈ d.includes, aliasOf a = aliasOf b →
    ∀ q ∈ place.target? file a, ∀ r ∈ place.target? file b, q = r

instance (file other : List Text) : Decidable (place.Includes file other) :=
  inferInstanceAs (Decidable (∃ d ∈ place.document? file, _))

instance (file : List Text) (name : Text) : Decidable (place.DeclaresStruct file name) :=
  inferInstanceAs (Decidable (∃ d ∈ place.document? file, _))

instance (file : List Text) (name : Text) : Decidable (place.DeclaresEnum file name) :=
  inferInstanceAs (Decidable (∃ d ∈ place.document? file, _))

instance (file : List Text) : Decidable (place.Unambiguous file) :=
  inferInstanceAs (Decidable (∀ d ∈ place.document? file, _))

/-! ## Lines -/

theorem lastTarget?_append (file lines : List Text) (name key : Text) :
    place.lastTarget? file (lines ++ [name]) key =
      (if aliasOf name = key then place.target? file name else none).or
        (place.lastTarget? file lines key) := by
  unfold lastTarget?
  rw [List.reverse_append]
  exact findSome?_cons_eq_or ..

/-- Where lines with one alias lead to one file, the last of them leads where any of them does. -/
theorem keeps_of_includes {file other : List Text} (hfile : place.Unambiguous file)
    (h : place.Includes file other) : place.Keeps file other := by
  obtain ⟨d, hd, name, hname, hother⟩ := h
  refine ⟨d, hd, aliasOf name, ?_⟩
  have hsome : (place.lastTarget? file d.includes (aliasOf name)).isSome := by
    refine List.findSome?_isSome_iff.2 ⟨name, List.mem_reverse.2 hname, ?_⟩
    rw [if_pos rfl, hother]
    rfl
  obtain ⟨last, hlast⟩ := Option.isSome_iff_exists.1 hsome
  obtain ⟨b, hb, hr⟩ := List.exists_of_findSome?_eq_some hlast
  split at hr
  · next hkey =>
    rw [hlast, hfile d hd b (List.mem_reverse.1 hb) name hname hkey last hr other hother]
  · cases hr

/-- Only the files of the disk have lines. -/
theorem unambiguous_of_files (h : ∀ f ∈ place.disk.files, place.Unambiguous f.1)
    (file : List Text) : place.Unambiguous file := by
  intro d hd
  obtain ⟨t, ht, -⟩ := Option.bind_eq_some_iff.1 hd
  obtain ⟨octets, hoctets, -⟩ := Option.bind_eq_some_iff.1 ht
  obtain ⟨f, hf, -⟩ := Option.map_eq_some_iff.1 hoctets
  have hfile := List.find?_some hf
  rw [decide_eq_true_eq] at hfile
  exact hfile ▸ h f (List.mem_of_find?_eq_some hf) d (hfile ▸ hd)

theorem map_find? (base : Path) (name : Text) :
    (place.find? base name).map (·.2) =
      (place.candidates base name).findSome? place.disk.find? := by
  unfold find?
  rw [List.map_findSome?]
  congr 1
  funext p
  show Option.map _ (Option.map _ (place.disk.find? p)) = place.disk.find? p
  cases place.disk.find? p <;> rfl

theorem disk_find?_of_find? {base p : Path} {name : Text} {parts : List Text}
    (h : place.find? base name = some (p, parts)) : place.disk.find? p = some parts := by
  obtain ⟨q, -, hq⟩ := List.exists_of_findSome?_eq_some h
  obtain ⟨r, hr, heq⟩ := Option.map_eq_some_iff.1 hq
  cases heq
  exact hr

/-- What the lines of a file lead to does not depend on the path by which the file was found. -/
theorem map_find?_parent (hdisk : place.disk.Proper) {p : Path} {file : List Text}
    (h : place.disk.find? p = some file) (name : Text) :
    (place.find? p.parent name).map (·.2) = place.target? file name := by
  rw [map_find?, target?, candidates, candidates, List.map_cons, List.map_cons,
    findSome?_cons_eq_or, findSome?_cons_eq_or, Disk.find?_beside hdisk h]

end Place

/-! ## What has been loaded -/

/-- A source with its place, as it has been loaded. -/
abbrev Entry := Option (List Text) × Thrift.Source

variable {place : Place} {loaded loaded' loaded'' : List Entry}

/-- The source of the number lies at the place. -/
def LiesAt (loaded : List Entry) (i : Nat) (file : List Text) : Prop :=
  ∃ s, loaded[i]? = some (some file, s)

/-- The include map of the source at `file` has for every alias where the last of the lines leads
    to. -/
structure Attached (place : Place) (loaded : List Entry) (file : List Text) (lines : List Text)
    (includes : Table Nat) : Prop where
  keys : includes.keys.Nodup
  targets : ∀ key, Option.Rel (fun r j => LiesAt loaded j r) (place.lastTarget? file lines key)
    (includes.get? key)

/-- A source is the one at its place, and all its includes are attached. -/
def Complete (place : Place) (loaded : List Entry) (e : Entry) : Prop :=
  ∃ file, e.1 = some file ∧ place.document? file = some e.2.document ∧
    Attached place loaded file e.2.document.includes e.2.includes

/-- Sources have been loaded: the new ones are complete, and of the old ones at most the open ones
    have changed, not in their places. -/
structure Grown (place : Place) (isOpen : Nat → Prop) (loaded loaded' : List Entry) : Prop where
  kept : ∀ i e, loaded[i]? = some e → ¬ isOpen i → loaded'[i]? = some e
  places : ∀ i file, LiesAt loaded i file → LiesAt loaded' i file
  complete : ∀ i e, loaded.length ≤ i → loaded'[i]? = some e → Complete place loaded' e

theorem LiesAt.eq {i : Nat} {q r : List Text} (hq : LiesAt loaded i q) (hr : LiesAt loaded i r) :
    q = r := by
  obtain ⟨s, hs⟩ := hq
  obtain ⟨t, ht⟩ := hr
  cases hs.symm.trans ht
  rfl

theorem LiesAt.lt {i : Nat} {file : List Text} (h : LiesAt loaded i file) : i < loaded.length :=
  (List.getElem?_eq_some_iff.1 h.choose_spec).1

theorem Attached.mono {file lines : List Text} {includes : Table Nat}
    (h : Attached place loaded file lines includes)
    (hplaces : ∀ i file, LiesAt loaded i file → LiesAt loaded' i file) :
    Attached place loaded' file lines includes := by
  exact ⟨h.keys, fun key => rel_imp (h.targets key) fun r j => hplaces j r⟩

/-- A line that leads nowhere changes nothing. -/
theorem Attached.skip {file lines : List Text} {includes : Table Nat} {name : Text}
    (h : Attached place loaded file lines includes) (hname : place.target? file name = none) :
    Attached place loaded file (lines ++ [name]) includes := by
  refine ⟨h.keys, fun key => ?_⟩
  rw [Place.lastTarget?_append, hname, ite_self, Option.none_or]
  exact h.targets key

/-- A line that leads to a source gives its alias that source. -/
theorem Attached.insert {file lines r : List Text} {includes : Table Nat} {name : Text} {j : Nat}
    (h : Attached place loaded file lines includes) (hname : place.target? file name = some r)
    (hj : LiesAt loaded j r) :
    Attached place loaded file (lines ++ [name]) (includes.insert (aliasOf name) j) := by
  refine ⟨Table.nodup_keys_insert h.keys _ _, fun key => ?_⟩
  rw [Place.lastTarget?_append, hname, Table.get?_insert]
  split
  · exact .some hj
  · rw [Option.none_or]
    exact h.targets key

theorem Complete.mono {e : Entry} (h : Complete place loaded e)
    (hplaces : ∀ i file, LiesAt loaded i file → LiesAt loaded' i file) :
    Complete place loaded' e := by
  obtain ⟨file, hfile, hdocument, hattached⟩ := h
  exact ⟨file, hfile, hdocument, hattached.mono hplaces⟩

namespace Grown

variable {isOpen : Nat → Prop}

theorem refl (isOpen : Nat → Prop) (loaded : List Entry) : Grown place isOpen loaded loaded := by
  refine ⟨fun _ _ h _ => h, fun _ _ h => h, fun i e hi he => ?_⟩
  rw [List.getElem?_eq_none hi] at he
  cases he

theorem trans (hopen : ∀ i, isOpen i → i < loaded.length)
    (h : Grown place isOpen loaded loaded') (h' : Grown place isOpen loaded' loaded'') :
    Grown place isOpen loaded loaded'' := by
  refine ⟨fun i e he hi => h'.kept i e (h.kept i e he hi) hi,
    fun i file hf => h'.places i file (h.places i file hf), fun i e hi he => ?_⟩
  by_cases hlt : i < loaded'.length
  · -- The first step has added the source, so it is none of the open ones.
    have hnotOpen : ¬ isOpen i := fun ho => Nat.not_lt.2 hi (hopen i ho)
    have hold := List.getElem?_eq_getElem hlt
    cases (h'.kept i _ hold hnotOpen).symm.trans he
    exact (h.complete i _ hi hold).mono h'.places
  · exact h'.complete i e (Nat.not_lt.1 hlt) he

theorem mono {isOpen' : Nat → Prop} (h : Grown place isOpen loaded loaded')
    (hopen : ∀ i, isOpen i → isOpen' i) : Grown place isOpen' loaded loaded' :=
  ⟨fun i e he hi => h.kept i e he (mt (hopen i) hi), h.places, h.complete⟩

/-- A source that is open has got an include. -/
theorem modify (loaded : List Entry) (i : Nat) (f : Thrift.Source → Thrift.Source) :
    Grown place (· = i) loaded (loaded.modify i fun e => (e.1, f e.2)) := by
  refine ⟨fun k e he hk => ?_, fun k file ⟨s, hs⟩ => ?_, fun k e hk he => ?_⟩
  · rw [List.getElem?_modify_ne _ _ (Ne.symm hk), he]
  · rw [LiesAt, List.getElem?_modify, hs]
    by_cases hk : i = k <;> simp [hk]
  · rw [List.getElem?_eq_none (by rwa [List.length_modify])] at he
    cases he

/-- The source that has been opened is complete, too. -/
theorem close {e : Entry} (h : Grown place (· = loaded.length) (loaded ++ [e]) loaded')
    (hopen : ∀ e', loaded'[loaded.length]? = some e' → Complete place loaded' e') :
    Grown place (fun _ => False) loaded loaded' := by
  have hold : ∀ i e', loaded[i]? = some e' → (loaded ++ [e])[i]? = some e' := fun i e' he => by
    rw [List.getElem?_append_left (List.getElem?_eq_some_iff.1 he).1, he]
  refine ⟨fun i e' he _ => h.kept i e' (hold i e' he) ?_, ?_, fun i e' hi he => ?_⟩
  · exact Nat.ne_of_lt (List.getElem?_eq_some_iff.1 he).1
  · rintro i file ⟨s, hs⟩
    exact h.places i file ⟨s, hold i _ hs⟩
  · rcases Nat.eq_or_lt_of_le hi with rfl | hlt
    · exact hopen e' he
    · refine h.complete i e' ?_ he
      rw [List.length_append, List.length_singleton]
      exact hlt

end Grown

/-! ## Loading -/

section Loading

variable {l l' : Loading Thrift.Source} {i j : Nat}

theorem ends_add {parts : Option (List Text)} {s : Thrift.Source} :
    Ends (Loader.add parts s) l i l' ↔
      i = l.loaded.length ∧ l' = { l with loaded := l.loaded ++ [(parts, s)] } := by
  unfold Loader.add
  simp only [ends_bind, ends_get, ends_set, ends_pure]
  constructor
  · rintro ⟨_, _, ⟨rfl, rfl⟩, _, _, rfl, rfl, rfl⟩
    exact ⟨rfl, rfl⟩
  · rintro ⟨rfl, rfl⟩
    exact ⟨l, l, ⟨rfl, rfl⟩, ⟨⟩, _, rfl, rfl, rfl⟩

/-- What it takes of a way to load files: the source that is loaded lies where the path leads, and
    it is complete, with everything that has been loaded for it. -/
def Loads (place : Place) (load : Path → List Text → Loader Thrift.Source Nat) : Prop :=
  ∀ p file l j l', place.disk.find? p = some file → Ends (load p file) l j l' →
    Grown place (fun _ => False) l.loaded l'.loaded ∧ LiesAt l'.loaded j file

theorem once_grown {load : Path → List Text → Loader Thrift.Source Nat} (hload : Loads place load)
    {p : Path} {file : List Text} (hp : place.disk.find? p = some file)
    (h : Ends (Loader.once file (load p file)) l j l') :
    Grown place (fun _ => False) l.loaded l'.loaded ∧ LiesAt l'.loaded j file := by
  unfold Loader.once at h
  obtain ⟨t, t', hget, h⟩ := ends_bind.1 h
  obtain ⟨rfl, rfl⟩ := ends_get.1 hget
  split at h
  · next k hk =>
    obtain ⟨rfl, rfl⟩ := ends_pure.1 h
    obtain ⟨hlt, hplace, -⟩ := List.findIdx?_eq_some_iff_getElem.1 hk
    refine ⟨.refl _ _, l.loaded[k].2, ?_⟩
    rw [List.getElem?_eq_getElem hlt, Option.some_inj]
    exact Prod.ext (of_decide_eq_true hplace) rfl
  · exact hload p file l j l' hp h

/-- Attaching lines to an open source. -/
theorem attachIncludes_grown {load : Path → List Text → Loader Thrift.Source Nat}
    (hload : Loads place load) {base : Path} {file : List Text}
    (hbase : ∀ name, (place.find? base name).map (·.2) = place.target? file name) {path : Text}
    {done lines : List Text} {s : Thrift.Source} {u : Unit}
    (hs : l.loaded[i]? = some (some file, s))
    (hdone : Attached place l.loaded file done s.includes)
    (h : Ends (attachIncludes place load base i path lines) l u l') :
    ∃ s', l'.loaded[i]? = some (some file, s') ∧ s'.document = s.document ∧
      Attached place l'.loaded file (done ++ lines) s'.includes ∧
      Grown place (· = i) l.loaded l'.loaded := by
  induction lines generalizing l done s with
  | nil =>
    obtain ⟨-, rfl⟩ := ends_pure.1 h
    rw [List.append_nil]
    exact ⟨s, hs, rfl, hdone, .refl _ _⟩
  | cons name rest ih =>
    rw [attachIncludes] at h
    rw [List.append_cons]
    have htarget := hbase name
    split at h
    · next hnone =>
      -- The line leads nowhere, which only leaves a notice.
      rw [hnone, Option.map_none] at htarget
      obtain ⟨_, l₁, hnote, h⟩ := ends_bind.1 h
      obtain rfl := ends_modify.1 hnote
      exact ih (l := { l with notices := l.notices ++ [_] }) hs (hdone.skip htarget.symm) h
    · next p r hsome =>
      -- The file of the line is loaded, and then the alias of the line gets its number.
      rw [hsome, Option.map_some] at htarget
      obtain ⟨j, l₁, honce, h⟩ := ends_bind.1 h
      obtain ⟨_, l₂, hupdate, h⟩ := ends_bind.1 h
      obtain rfl := ends_modify.1 hupdate
      obtain ⟨hgrown, hj⟩ := once_grown hload (Place.disk_find?_of_find? hsome) honce
      have hopen : ∀ k, k = i → k < l.loaded.length := by
        rintro k rfl
        exact (List.getElem?_eq_some_iff.1 hs).1
      have hkept := hgrown.kept i _ hs id
      have hmodify : Grown place (· = i) l₁.loaded _ := .modify l₁.loaded i fun s =>
        { s with includes := s.includes.insert (aliasOf name) j }
      have hattached := ((hdone.mono hgrown.places).insert htarget.symm hj).mono hmodify.places
      have hs₂ : (l₁.modify i fun s : Thrift.Source =>
          { s with includes := s.includes.insert (aliasOf name) j }).loaded[i]? =
            some (some file, { s with includes := s.includes.insert (aliasOf name) j }) := by
        show (l₁.loaded.modify i _)[i]? = _
        rw [List.getElem?_modify_eq, hkept]
        rfl
      obtain ⟨s', hs', hdocument, hlines, hrest⟩ := ih hs₂ hattached h
      refine ⟨s', hs', hdocument, hlines, Grown.trans hopen ?_ hrest⟩
      exact (hgrown.mono fun _ => False.elim).trans hopen hmodify

theorem ends_read {p : Path} {file : List Text} {t : Text}
    (h : Ends (liftM (place.read p file) : Loader Thrift.Source Text) l t l') :
    l = l' ∧ (place.disk.contents? file).bind Utf8.readFile? = some t := by
  obtain ⟨h, hl⟩ := ends_lift_except.1 h
  refine ⟨hl, ?_⟩
  unfold Place.read at h
  split at h
  · cases h
  · next octets hoctets =>
    rw [hoctets, Option.bind_some]
    split at h
    · next t' ht' =>
      cases pure_eq_ok.1 h
      exact ht'
    · cases h

/-- Loading a file adds it behind what has been loaded, and leaves it complete, with everything that
    its lines lead to. -/
theorem loadThrift_grown (hdisk : place.disk.Proper) {bound : Nat} {p : Path} {file : List Text}
    (hp : place.disk.find? p = some file) (h : Ends (loadThrift place bound p file) l j l') :
    j = l.loaded.length ∧ Grown place (fun _ => False) l.loaded l'.loaded ∧
      LiesAt l'.loaded j file := by
  induction bound generalizing p file l j l' with
  | zero => exact absurd h ends_throw
  | succ bound ih =>
    have hload : Loads place (loadThrift place bound) := fun _ _ _ _ _ hp h => (ih hp h).2
    obtain ⟨t, _, hread, h⟩ := ends_bind.1 h
    obtain ⟨rfl, ht⟩ := ends_read hread
    split at h
    · exact absurd h ends_throw
    · next d hd =>
      obtain ⟨i, _, hadd, h⟩ := ends_bind.1 h
      obtain ⟨rfl, rfl⟩ := ends_add.1 hadd
      obtain ⟨_, _, hnote, h⟩ := ends_bind.1 h
      obtain rfl := ends_modify.1 hnote
      obtain ⟨_, l₂, hattach, h⟩ := ends_bind.1 h
      obtain ⟨rfl, rfl⟩ := ends_pure.1 h
      have hdocument : place.document? file = some d := by
        rw [Place.document?, ht, Option.bind_some, hd]
        rfl
      -- The source is added without includes and stays open until its lines are attached.
      have hnone : Attached place (l.loaded ++ [(some file, ⟨p.toText, d, []⟩)]) file [] [] :=
        ⟨List.nodup_nil, fun _ => .none⟩
      have hparent := Place.map_find?_parent hdisk hp
      obtain ⟨s', hs', hsame, hattached, hgrown⟩ :=
        attachIncludes_grown hload hparent List.getElem?_concat_length hnone hattach
      refine ⟨rfl, hgrown.close fun e he => ?_, s', hs'⟩
      cases hs'.symm.trans he
      exact ⟨file, rfl, hsame ▸ hdocument, hsame ▸ hattached⟩

end Loading

/-! ## Reached files -/

/-- The sources that have been loaded, without their places. -/
def sourcesOf (loaded : List Entry) : Thrift.SourceSet :=
  ⟨loaded.map (·.2)⟩

/-- Everything that has been loaded for a main file is complete. -/
structure Whole (place : Place) (main : List Text) (loaded : List Entry) : Prop where
  main : LiesAt loaded 0 main
  complete : ∀ (i : Nat) (e : Entry), loaded[i]? = some e → Complete place loaded e

theorem source?_sourcesOf {i : Nat} {file : Option (List Text)} {s : Thrift.Source}
    (h : loaded[i]? = some (file, s)) : (sourcesOf loaded).source? i = some s := by
  rw [Thrift.SourceSet.source?, sourcesOf, List.getElem?_map, h]
  rfl

namespace Whole

variable {main : List Text} (h : Whole place main loaded)

include h

theorem exists_source {i : Nat} {file : List Text} (hi : LiesAt loaded i file) :
    ∃ s, (sourcesOf loaded).source? i = some s ∧ place.document? file = some s.document ∧
      Attached place loaded file s.document.includes s.includes := by
  obtain ⟨s, hs⟩ := hi
  obtain ⟨file', hfile, hdocument, hattached⟩ := h.complete i _ hs
  cases hfile
  exact ⟨s, source?_sourcesOf hs, hdocument, hattached⟩

theorem exists_liesAt {i : Nat} (hi : i < loaded.length) : ∃ file, LiesAt loaded i file := by
  obtain ⟨file, hfile, -⟩ := h.complete i _ (List.getElem?_eq_getElem hi)
  exact ⟨file, loaded[i].2, by rw [List.getElem?_eq_getElem hi, ← hfile]⟩

/-- What an include map has is what the source keeps. -/
theorem keeps_iff {i : Nat} {file other : List Text} (hi : LiesAt loaded i file) :
    place.Keeps file other ↔ ∃ j, Linked loaded.length (sourcesOf loaded).included i j ∧
      LiesAt loaded j other := by
  obtain ⟨s, hs, hdocument, hattached⟩ := h.exists_source hi
  -- The map of a source has the position of the last file of each alias.
  have hincluded : (sourcesOf loaded).included i = s.includes.values := by
    rw [Thrift.SourceSet.included, hs]
    rfl
  constructor
  · rintro ⟨d, hd, key, hkey⟩
    cases hdocument.symm.trans hd
    have hrel := hattached.targets key
    rw [hkey] at hrel
    cases hget : s.includes.get? key with
    | none =>
      rw [hget] at hrel
      cases hrel
    | some j =>
      rw [hget, Option.rel_some_some] at hrel
      refine ⟨j, ⟨?_, hrel.lt⟩, hrel⟩
      rw [hincluded]
      exact List.mem_map.2 ⟨_, Table.mem_of_get? hget, rfl⟩
  · rintro ⟨j, ⟨hj, -⟩, hother⟩
    rw [hincluded] at hj
    obtain ⟨⟨key, _⟩, hmem, rfl⟩ := List.mem_map.1 hj
    have hrel := hattached.targets key
    rw [Table.get?_of_mem hattached.keys hmem] at hrel
    cases htarget : place.lastTarget? file s.document.includes key with
    | none =>
      rw [htarget] at hrel
      cases hrel
    | some r =>
      rw [htarget, Option.rel_some_some] at hrel
      rw [hrel.eq hother] at htarget
      exact ⟨s.document, hdocument, key, htarget⟩

/-- The reached sources lie at the places that are reached through kept includes. -/
theorem kept_iff {file : List Text} :
    Relation.ReflTransGen place.Keeps main file ↔
      ∃ i ∈ (sourcesOf loaded).order, LiesAt loaded i file := by
  have hlength : (sourcesOf loaded).sources.length = loaded.length := List.length_map ..
  have horder : ∀ i, i ∈ (sourcesOf loaded).order ↔
      Reachable loaded.length (sourcesOf loaded).included i := by
    intro i
    rw [← hlength]
    exact mem_sweep_iff List.mem_append
  simp only [horder]
  constructor
  · -- Every include that is kept stands in the include map of a source.
    intro hpath
    induction hpath with
    | refl => exact ⟨0, ⟨h.main.lt, .refl⟩, h.main⟩
    | tail _ hkeeps ih =>
      obtain ⟨i, ⟨hpos, hi⟩, hfile⟩ := ih
      obtain ⟨j, hj, hother⟩ := (h.keeps_iff hfile).1 hkeeps
      exact ⟨j, ⟨hpos, hi.tail hj⟩, hother⟩
  · rintro ⟨i, ⟨-, hi⟩, hfile⟩
    induction hi generalizing file with
    | refl => exact hfile.eq h.main ▸ .refl
    | @tail i j hi hj ih =>
      -- The source in between has a place, too, since everything that is loaded has one.
      have hlt : i < loaded.length := by
        rcases Relation.ReflTransGen.cases_tail hi with rfl | ⟨_, -, hlinked⟩
        · exact h.main.lt
        · exact hlinked.2
      obtain ⟨file', hfile'⟩ := h.exists_liesAt hlt
      exact (ih hfile').tail ((h.keeps_iff hfile').2 ⟨j, hj, hfile⟩)

/-- What holds of a reached source holds of a document that is reached through kept includes. -/
theorem reached_iff (P : Thrift.Document → Prop) :
    (∃ i ∈ (sourcesOf loaded).order, ∃ s, (sourcesOf loaded).source? i = some s ∧ P s.document) ↔
      ∃ file, Relation.ReflTransGen place.Keeps main file ∧
        ∃ d ∈ place.document? file, P d := by
  constructor
  · rintro ⟨i, hi, s, hs, hP⟩
    have hlt : i < loaded.length := by
      have := Thrift.SourceSet.source?_lt hs
      rwa [sourcesOf, List.length_map] at this
    obtain ⟨file, hfile⟩ := h.exists_liesAt hlt
    obtain ⟨s', hs', hdocument, -⟩ := h.exists_source hfile
    cases hs.symm.trans hs'
    exact ⟨file, h.kept_iff.2 ⟨i, hi, hfile⟩, s.document, hdocument, hP⟩
  · rintro ⟨file, hpath, d, hd, hP⟩
    obtain ⟨i, hi, hfile⟩ := h.kept_iff.1 hpath
    obtain ⟨s, hs, hdocument, -⟩ := h.exists_source hfile
    cases hdocument.symm.trans hd
    exact ⟨i, hi, s, hs, hP⟩

end Whole

theorem ends_of_run' {σ α : Type} {load : Loader σ α} {sources : List σ} {notices : List Notice}
    (h : load.run' = (.ok sources, notices)) :
    ∃ a l, Ends load ⟨[], []⟩ a l ∧ sources = l.loaded.map (·.2) := by
  unfold Loader.run' at h
  rcases hrun : load.run.run ⟨[], []⟩ with ⟨e | a, l⟩
  · rw [hrun] at h
    cases h
  · rw [hrun] at h
    cases h
    exact ⟨a, l, hrun, rfl⟩

/-- A main file that is reflected has been loaded whole, and its descriptor has the first
    declarations of what has been loaded. -/
theorem whole_of_ofFile (hdisk : place.disk.Proper) {path : Text} {file : FileDesc}
    {notices : List Notice} (hsuffix : (Path.ofText path).suffix = ".thrift")
    (h : ofFile place path = (.ok file, notices)) :
    ∃ main loaded, place.disk.find? (Path.ofText path) = some main ∧ Whole place main loaded ∧
      (sourcesOf loaded).Registers file := by
  unfold ofFile at h
  dsimp only at h
  rw [if_pos hsuffix] at h
  obtain ⟨sources, ns, hrun, hreflect⟩ := Reflected.ends_of_resolve h
  obtain ⟨i, l, hload, rfl⟩ := ends_of_run' hrun
  unfold loadMain at hload
  split at hload
  · next main hmain =>
    obtain ⟨rfl, hgrown, hlies⟩ := loadThrift_grown hdisk hmain hload
    exact ⟨main, l.loaded, hmain, ⟨hlies, fun k e => hgrown.complete k e (Nat.zero_le k)⟩,
      Thrift.SourceSet.registers_of_reflect hreflect⟩
  · exact absurd hload ends_throw

/-- What comes out of a main file has the structs and the enumerations of the files that are reached
    through kept include lines, and of no others.  Where lines with one alias lead to one file,
    these are all files that are reached through include lines. -/
theorem declared_iff_kept (hdisk : place.disk.Proper) {path : Text} {file : FileDesc}
    {notices : List Notice} (hsuffix : (Path.ofText path).suffix = ".thrift")
    (h : ofFile place path = (.ok file, notices)) :
    ∃ main, place.disk.find? (Path.ofText path) = some main ∧
      (∀ name, file.structs.has name = true ↔
        ∃ q, Relation.ReflTransGen place.Keeps main q ∧ place.DeclaresStruct q name) ∧
      (∀ name, file.enums.has name = true ↔
        ∃ q, Relation.ReflTransGen place.Keeps main q ∧ place.DeclaresEnum q name) ∧
      ((∀ q, Relation.ReflTransGen place.Includes main q → place.Unambiguous q) →
        ∀ q, Relation.ReflTransGen place.Includes main q → ∀ name,
          (place.DeclaresStruct q name → file.structs.has name = true) ∧
          (place.DeclaresEnum q name → file.enums.has name = true)) := by
  obtain ⟨main, loaded, hmain, hwhole, hregisters⟩ := whole_of_ofFile hdisk hsuffix h
  have hstructs : ∀ name, file.structs.has name = true ↔
      ∃ q, Relation.ReflTransGen place.Keeps main q ∧ place.DeclaresStruct q name := fun name =>
    (Table.has_iff_isSome (hregisters.structs name)).trans
      (Thrift.SourceSet.isSome_firstStruct?_iff.trans
        (hwhole.reached_iff fun d => ∃ s ∈ d.structs, s.name = name))
  have henums : ∀ name, file.enums.has name = true ↔
      ∃ q, Relation.ReflTransGen place.Keeps main q ∧ place.DeclaresEnum q name := fun name => by
    have hrel : Option.Rel (fun e d => Thrift.SourceSet.enumeration e = d)
        ((sourcesOf loaded).firstEnum? name) (file.enums.get? name) := by
      rw [← hregisters.enums name]
      cases (sourcesOf loaded).firstEnum? name with
      | none => exact .none
      | some e => exact .some rfl
    exact (Table.has_iff_isSome hrel).trans
      (Thrift.SourceSet.isSome_firstEnum?_iff.trans
        (hwhole.reached_iff fun d => ∃ e ∈ d.enums, e.name = name))
  refine ⟨main, hmain, hstructs, henums, fun hunambiguous q hq name => ?_⟩
  -- Where lines with one alias lead to one file, the last of them leads where all of them do.
  have hkept : Relation.ReflTransGen place.Keeps main q := by
    induction hq with
    | refl => exact .refl
    | tail hq hincludes ih =>
      exact ih.tail (Place.keeps_of_includes (hunambiguous _ hq) hincludes)
  exact ⟨fun hd => (hstructs name).2 ⟨q, hkept, hd⟩, fun hd => (henums name).2 ⟨q, hkept, hd⟩⟩

/-! ## Two lines with one alias -/

/-- A place with the given files below the working folder. -/
def placeOf (files : List (List Text × Text)) : Place :=
  ⟨⟨["home"], files.map fun f => ("home" :: f.1, f.2.map (·.toNat))⟩, []⟩

/-- What is loaded for a main file. -/
def loadedFor (place : Place) (path : Text) :
    Except ReflectionError (List Thrift.Source) × List Notice :=
  let p := Path.ofText path
  (loadMain place p (loadThrift place place.bound p)).run'

/-- The sources that are loaded for a main file. -/
def sourcesFor (place : Place) (path : Text) : Thrift.SourceSet :=
  ⟨(loadedFor place path).1.toOption.getD []⟩

/-- The outcome of a main file, where it can be evaluated. -/
theorem ofFile_of_toOption {path : Text} {file : FileDesc}
    (hsuffix : (Path.ofText path).suffix = ".thrift")
    (hloaded : (sourcesFor place path).sources ≠ [])
    (hreflect : ((sourcesFor place path).reflect.run.run (loadedFor place path).2).1.toOption =
      some file) : ∃ notices, ofFile place path = (.ok file, notices) := by
  have hends := ends_of_toOption hreflect
  unfold sourcesFor at hends hloaded
  rcases hload : loadedFor place path with ⟨e | sources, ns⟩
  · rw [hload] at hloaded
    exact absurd rfl hloaded
  · rw [hload] at hends
    have heq : ofFile place path = resolveThrift (loadedFor place path) := if_pos hsuffix
    rw [heq, hload]
    exact ⟨_, hends⟩

/-- The order of sources depends on their include maps only, which are evaluated once. -/
theorem order_of_includes {set : Thrift.SourceSet} {includes : List (List Nat)}
    (h : set.sources.map (·.includes.values) = includes) :
    set.order = preorder includes.length fun i => includes[i]?.getD [] := by
  have hincluded : set.included = fun i => includes[i]?.getD [] := by
    funext i
    rw [← h, List.getElem?_map]
    rfl
  have hlength : set.sources.length = includes.length := by rw [← h, List.length_map]
  rw [← hincluded, ← hlength]
  rfl

theorem sources_ne_nil {set : Thrift.SourceSet} {includes : List (List Nat)}
    (h : set.sources.map (·.includes.values) = includes) (hincludes : includes ≠ []) :
    set.sources ≠ [] := by
  rw [← h] at hincludes
  exact fun hnil => hincludes (by rw [hnil, List.map_nil])

/-- A main file with two lines that lead to files of one name. -/
def twinPlace : Place :=
  placeOf [
    (["m.thrift"], "include \"a/c.thrift\"\ninclude \"b/c.thrift\"\nstruct M {}\n"),
    (["a", "c.thrift"], "struct A {}\n"),
    (["b", "c.thrift"], "struct B {}\n")]

/-- The file that `twinPlace` reflects to. -/
def twinFile : FileDesc :=
  { path := "m.thrift", package := [], services := []
    structs := [("M", ⟨"M", [], [], []⟩), ("B", ⟨"B", [], [], []⟩)]
    enums := [], localStructs := ["M"] }

theorem includes_twinPlace : (sourcesFor twinPlace "m.thrift").sources.map (·.includes.values) =
    [[2], [], []] := by
  decide +kernel

theorem order_twinPlace : (sourcesFor twinPlace "m.thrift").order = [0, 2] := by
  rw [order_of_includes includes_twinPlace]
  simp [preorder, sweep]

/-- `a/c.thrift` is found, read and reflected without an error, and its struct is lost. -/
theorem lost_twinFile :
    twinPlace.disk.Proper ∧
      (∃ notices, ofFile twinPlace "m.thrift" = (.ok twinFile, notices)) ∧
      twinPlace.disk.find? (Path.ofText "m.thrift") = some (["home", "m.thrift"] : List Text) ∧
      twinPlace.Includes ["home", "m.thrift"] ["home", "a", "c.thrift"] ∧
      twinPlace.DeclaresStruct ["home", "a", "c.thrift"] "A" ∧
      twinFile.structs.has "A" = false := by
  have hloaded : (sourcesFor twinPlace "m.thrift").sources ≠ [] :=
    sources_ne_nil includes_twinPlace (by simp)
  refine ⟨⟨by decide +kernel, by decide +kernel⟩, ofFile_of_toOption (by decide) hloaded ?_,
    by decide +kernel, by decide +kernel, by decide +kernel, by decide⟩
  unfold Thrift.SourceSet.reflect Thrift.SourceSet.enums
  rw [order_twinPlace]
  decide +kernel

/-- A main file whose includes lead back to it, and that is included twice. -/
def ringPlace : Place :=
  placeOf [
    (["m.thrift"], "include \"a/c.thrift\"\ninclude \"b/d.thrift\"\nstruct M {}\n"),
    (["a", "c.thrift"], "enum E { X }\n"),
    (["b", "d.thrift"], "include \"../m.thrift\"\ninclude \"../a/c.thrift\"\nstruct D {}\n")]

/-- The file that `ringPlace` reflects to. -/
def ringFile : FileDesc :=
  { path := "m.thrift", package := [], services := []
    structs := [("M", ⟨"M", [], [], []⟩), ("D", ⟨"D", [], [], []⟩)]
    enums := [("E", ⟨"E", [("X", 0)], []⟩)], localStructs := ["M"] }

theorem includes_ringPlace : (sourcesFor ringPlace "m.thrift").sources.map (·.includes.values) =
    [[1, 2], [], [0, 1]] := by
  decide +kernel

theorem order_ringPlace : (sourcesFor ringPlace "m.thrift").order = [0, 1, 2] := by
  rw [order_of_includes includes_ringPlace]
  simp [preorder, sweep]

/-- Where every alias stands for one file, nothing is lost. -/
theorem declared_ringFile :
    ringPlace.disk.Proper ∧
      (∃ notices, ofFile ringPlace "m.thrift" = (.ok ringFile, notices)) ∧
      (∀ q, ringPlace.Unambiguous q) ∧
      ∃ main, ringPlace.disk.find? (Path.ofText "m.thrift") = some main ∧
        ∀ q, Relation.ReflTransGen ringPlace.Includes main q → ∀ name,
          (ringPlace.DeclaresStruct q name → ringFile.structs.has name = true) ∧
          (ringPlace.DeclaresEnum q name → ringFile.enums.has name = true) := by
  have hdisk : ringPlace.disk.Proper := ⟨by decide +kernel, by decide +kernel⟩
  have hunambiguous : ∀ q, ringPlace.Unambiguous q :=
    Place.unambiguous_of_files (by decide +kernel)
  have hfile : ∃ notices, ofFile ringPlace "m.thrift" = (.ok ringFile, notices) := by
    have hloaded : (sourcesFor ringPlace "m.thrift").sources ≠ [] :=
      sources_ne_nil includes_ringPlace (by simp)
    refine ofFile_of_toOption (by decide) hloaded ?_
    unfold Thrift.SourceSet.reflect Thrift.SourceSet.enums
    rw [order_ringPlace]
    decide +kernel
  obtain ⟨notices, h⟩ := hfile
  obtain ⟨main, hmain, -, -, hall⟩ := declared_iff_kept hdisk (by decide) h
  exact ⟨hdisk, ⟨notices, h⟩, hunambiguous, main, hmain, hall fun q _ => hunambiguous q⟩

end IdlBridge.Reflection
