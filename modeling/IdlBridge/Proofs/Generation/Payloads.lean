import IdlBridge.Proofs.Generation.Closure
import IdlBridge.Proofs.Generation.Components
import IdlBridge.Proofs.OpenApi.Sharing
import IdlBridge.Proofs.Yaml.Loading

/-! # When a component can be built

    A payload that is no object of the wanted kind is left out with a notice, and so is one that is
    not even a document; the others are laid over what has been built.  The exception is a payload
    with a scalar that stands for nothing, such as a day that no calendar has: it stops the
    generation.  So the component of a struct can be built unless one of the payloads that it reads
    is of this sort.
-/

namespace IdlBridge.Generation

open OpenApi Object

variable {α β : Type} {P : Demand → Prop}

/-- The payload of the key holds a scalar that stands for nothing. -/
def Impossible (as : Annotations) (key : Text) : Prop :=
  as.mapping? key = some (.error .impossible)

/-- The object that the payload of a key holds, if it holds one. -/
def payloadOf? (as : Annotations) (key : Text) (k : Kind) : Option Object :=
  match as.data? key with
  | some (.ok x) => ofValue? k x
  | _ => none

/-- What the payload of a key gives a member, if it gives the member something. -/
def payloadGives? (as : Annotations) (key : Text) (k : Kind) (m : Member) : Option Slot :=
  (payloadOf? as key k).bind fun p => p.given? m

/-- A payload gives no key twice, and its mappings with one mark are one mapping. -/
theorem keyed_and_coherent_of_data? {as : Annotations} {key : Text} {x : Loaded}
    (h : as.data? key = some (.ok x)) : x.Keyed ∧ x.Coherent := by
  obtain ⟨a, -, h⟩ := Option.map_eq_some_iff.1 h
  unfold Annotation.data at h
  dsimp only at h
  split at h
  · cases h
  · next y hread =>
    split at h
    · rw [← Except.ok.inj h]
      exact ⟨Loaded.keyed_map_iff.2 ⟨⟨List.Pairwise.nil, fun _ hk => nomatch hk⟩,
        fun _ he => nomatch he⟩, fun _ hn => nomatch hn⟩
    · rw [← Except.ok.inj h]
      exact ⟨Yaml.keyed_of_read hread, Yaml.coherent_of_read hread⟩
    · cases h

theorem ofValue?_of_payloadOf? {as : Annotations} {key : Text} {k : Kind} {p : Object}
    (h : payloadOf? as key k = some p) :
    ∃ x, as.data? key = some (.ok x) ∧ ofValue? k x = some p := by
  unfold payloadOf? at h
  split at h
  · next x hx => exact ⟨x, hx, h⟩
  · cases h

theorem sound_of_payloadOf? {as : Annotations} {key : Text} {k : Kind} {p : Object}
    (h : payloadOf? as key k = some p) : p.Sound := by
  obtain ⟨x, hx, hp⟩ := ofValue?_of_payloadOf? h
  exact sound_ofValue? (keyed_and_coherent_of_data? hx).1 k p hp

/-- A payload is merged into an object of its kind, and laying it over the object a second time
    changes nothing, as long as the object has each mapping that the payload puts something into at
    one place. -/
theorem merged_payloadOf? {as : Annotations} {key : Text} {k : Kind} {p o : Object}
    (h : payloadOf? as key k = some p) (hplain : PlainKeys p) (ho : o.Sound) (hkind : o.kind = k)
    (halone : Alone (touches (additions o p)) o.marks) :
    Merged o.unmarked p.unmarked (o.overlay p).unmarked ∧
      (overlayShared (o.overlay p) p).unmarked = (o.overlay p).unmarked := by
  obtain ⟨x, hx, hp⟩ := ofValue?_of_payloadOf? h
  obtain ⟨hkeyed, hcoherent⟩ := keyed_and_coherent_of_data? hx
  have hsound := sound_of_payloadOf? h
  have hkinds : o.kind = p.kind := by rw [hkind, kind_of_ofValue? hp]
  exact ⟨merged_overlay hsound hplain ho hkinds halone,
    unmarked_overlayShared hsound (keyed_data_ofValue? hkeyed hp)
      (fun n hn n' hn' =>
        hcoherent n (mem_nodes_ofValue? hp hn) n' (mem_nodes_ofValue? hp hn'))
      ho hkinds halone⟩

/-- A payload gives a member with a text or a flag no data. -/
theorem data_payloadGives? {as : Annotations} {key : Text} {k : Kind} {s : MemberSpec}
    (hs : s ∈ k.members) (hshape : s.shape = .text ∨ s.shape = .flag) {c : Slot}
    (h : payloadGives? as key k s.member = some c) : data.slot c = [] := by
  obtain ⟨p, hp, hc⟩ := Option.bind_eq_some_iff.1 h
  unfold payloadOf? at hp
  split at hp
  · obtain ⟨_, _, ms, rfl, hms, rfl⟩ := ofValue?_cases hp
    obtain ⟨e, he, rfl⟩ := Option.map_eq_some_iff.1 hc
    have hkey : e.1 = s.member := by simpa using List.find?_some he
    obtain ⟨s', hs', hmember, v, -, hslot⟩ :=
      mem_of_membersOf? hms (List.mem_of_find?_eq_some he)
    obtain rfl : s' = s := eq_of_member_eq hs' hs (hmember.trans hkey)
    rcases slotOf?_cases hslot with ⟨-, hnull, -⟩ | ⟨-, hreads⟩
    · rw [hnull]
      rfl
    · exact hreads.data_eq_nil hshape
  · cases hp

/-! ## Fields -/

end IdlBridge.Generation
