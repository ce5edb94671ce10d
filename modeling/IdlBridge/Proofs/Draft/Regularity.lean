import IdlBridge.Proofs.Draft.Source
import IdlBridge.Proofs.Table

/-! # Regular drafts have regular sources

    The conditions on a draft are about what it is written from, and those on a source are about
    what it is read from.  One implies the other, declaration by declaration.  Options are
    arranged on the way, and fields get their numbers, which stay below the number of fields.
-/

namespace IdlBridge.Draft

open Idl.Lexicon

theorem head?_ne_point_of_isWord {w : Text} (h : isWord w = true) :
    w.head? ≠ some ('.' : CodePoint) := by
  cases w with
  | nil => cases h
  | cons c w =>
    intro hc
    obtain rfl : c = ('.' : CodePoint) := Option.some.inj hc
    rw [isWord, Bool.and_eq_true] at h
    exact absurd h.1 (by decide)

namespace Setting

theorem Regular.source {s : Setting} (h : s.Regular) : s.source.Regular where
  name := head?_ne_point_of_isWord h.name
  value := h.value.arranged.mono fun _ _ => trivial

theorem regular_of_mem_map_source {ss : List Setting} (h : ∀ s ∈ ss, s.Regular) :
    ∀ s ∈ ss.map Setting.source, s.Regular := by
  intro s hs
  obtain ⟨r, hr, rfl⟩ := List.mem_map.1 hs
  exact (h r hr).source

end Setting

namespace Field

theorem Regular.source {f : Field} (h : f.Regular) {n : Nat}
    (hn : n < Nat.pow 10 Numeral.maxDecimalDigits) : (f.source n).Regular where
  type := by
    intro hkey
    rcases h.type with hword | ⟨-, key, value, htype, hkeyName, -⟩
    · simp only [Field.source, mapTypes?_of_isWord hword.1]
      exact hword.2
    · simp [Field.source, htype, mapTypes?_mapType hkeyName.1] at hkey
  repeated := by
    intro hkey
    rcases h.type with hword | ⟨hrepeated, -⟩
    · simp [Field.source, mapTypes?_of_isWord hword.1] at hkey
    · exact hrepeated
  oneof := rfl
  number := hn
  options := Setting.regular_of_mem_map_source h.settings
  comment := rfl

end Field

/-- The numbers of fields stay below the number of fields. -/
theorem regular_of_mem_numbered {fs : List Field} (h : ∀ f ∈ fs, f.Regular)
    (hcount : fs.length < Nat.pow 10 Numeral.maxDecimalDigits) : ∀ f ∈ numbered fs, f.Regular := by
  intro f hf
  obtain ⟨⟨g, n⟩, hg, rfl⟩ := List.mem_map.1 hf
  have hmem : g ∈ fs := List.mem_mergeSort.1 (List.fst_mem_of_mem_zipIdx hg)
  have hn := List.snd_lt_of_mem_zipIdx hg
  rw [byName, List.length_mergeSort] at hn
  refine (h g hmem).source ?_
  show n < _
  omega

theorem Enum.Regular.source {e : Enum} (h : e.Regular) : e.source.Regular where
  values := by
    intro v hv
    obtain ⟨w, hw, rfl⟩ := List.mem_map.1 hv
    obtain ⟨hname, hnumber⟩ := h.values w (List.mem_mergeSort.1 hw)
    exact ⟨hname.2, hnumber, fun s hs => nomatch hs⟩
  options := fun s hs => nomatch hs
  comment := rfl

theorem Message.Regular.source {m : Message} (h : m.Regular) : m.source.Regular := by
  induction h with
  | @mk m _ fields count _ enums settings ih =>
    have hmessages : ∀ n ∈ m.source.messages, n.Regular := by
      intro n hn
      rw [messages_source] at hn
      obtain ⟨k, hk, rfl⟩ := List.mem_map.1 hn
      exact ih k (List.mem_mergeSort.1 hk)
    obtain ⟨name, fs, nested, es, ss⟩ := m
    refine .mk (regular_of_mem_numbered fields count) hmessages (fun e he => ?_)
      (Setting.regular_of_mem_map_source settings) rfl
    obtain ⟨d, hd, rfl⟩ := List.mem_map.1 he
    exact (enums d (List.mem_mergeSort.1 hd)).source

theorem Method.Regular.source {m : Method} (h : m.Regular) : m.source.Regular where
  input := h.input.2
  output := h.output.2
  options := Setting.regular_of_mem_map_source h.settings
  comment := rfl

theorem Service.Regular.source {s : Service} (h : s.Regular) : s.source.Regular where
  rpcs := by
    intro r hr
    obtain ⟨m, hm, rfl⟩ := List.mem_map.1 hr
    exact (h.methods m (List.mem_mergeSort.1 hm)).source
  options := fun s hs => nomatch hs
  comment := rfl

theorem File.Regular.source {f : File} (h : f.Regular) : f.source.Regular where
  options := by
    intro s hs
    obtain ⟨e, he, rfl⟩ := List.mem_map.1 hs
    obtain ⟨hname, hvalue⟩ := h.settings e (Table.mem_sort.1 he)
    exact ⟨head?_ne_point_of_isWord hname, hvalue.arranged.mono fun _ _ => trivial⟩
  messages := by
    intro m hm
    obtain ⟨n, hn, rfl⟩ := List.mem_map.1 hm
    exact (h.messages n (List.mem_mergeSort.1 hn)).source
  enums := by
    intro e he
    obtain ⟨d, hd, rfl⟩ := List.mem_map.1 he
    exact (h.enums d (List.mem_mergeSort.1 hd)).source
  services := by
    intro s hs
    obtain ⟨t, ht, rfl⟩ := List.mem_map.1 hs
    exact (h.services t (List.mem_mergeSort.1 ht)).source

end IdlBridge.Draft
