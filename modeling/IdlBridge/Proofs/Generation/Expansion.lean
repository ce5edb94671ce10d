import IdlBridge.Proofs.Generation.Schemas
import Mathlib.Data.List.Perm.Subperm
import Mathlib.Data.List.TakeWhile

/-! # The expansion of required names

    The expansion takes names from the queue and registers their structs, which may require further
    names.  It ends with every required name registered: a name that is required is queued until its
    struct has a component, and the bound is enough because no name is required twice and only names
    that structs of the file refer to are required at all.
-/

namespace IdlBridge.Generation

open OpenApi Object

variable {file : FileDesc} {r r' r'' : Registry Object} {s : Session}

/-- Every required name waits in the queue or has a schema. -/
def Pending (r : Registry Object) : Prop :=
  ∀ n ∈ r.required, n ∈ r.queue ∨ r.schemas.has n = true

/-- The names that may still be taken from the queue: those that wait, and those that can still be
    required. -/
def work (file : FileDesc) (r : Registry Object) : Nat :=
  r.queue.length + ((referredStructs file).length - r.required.length)

/-- The structs that structs of the file refer to are there, and they fit. -/
def Resolves (file : FileDesc) : Prop :=
  ∀ n ∈ referredStructs file, ∃ d, file.findStruct n = some d ∧ d.name = n ∧ StructFits file d

theorem Extends.pending (h : Extends r r') (hp : Pending r) : Pending r' := by
  obtain ⟨new, hreq, hqueue⟩ := h.required
  intro n hn
  rw [hreq] at hn
  rcases List.mem_append.1 hn with hn | hn
  · refine (hp n hn).imp (fun hn => ?_) (h.schemas n)
    rw [hqueue]
    exact List.mem_append_left _ hn
  · rw [hqueue]
    exact Or.inl (List.mem_append_right _ hn)

/-- There are no more required names than names that structs of the file refer to. -/
theorem Sound.length_required_le (h : Sound file r) :
    r.required.length ≤ (referredStructs file).length :=
  (h.nodup.subperm h.referred).length_le

/-- Requiring a name moves it from those that can still be required to those that wait. -/
theorem Extends.work_eq (h : Extends r r')
    (hle : r'.required.length ≤ (referredStructs file).length) : work file r' = work file r := by
  obtain ⟨new, hreq, hqueue⟩ := h.required
  unfold work
  rw [hqueue]
  rw [hreq, List.length_append] at hle ⊢
  rw [List.length_append]
  omega

/-! ## Taking names from the queue -/

theorem Sound.withQueue (h : Sound file r) {queue : List Text} (hqueue : queue ⊆ r.queue) :
    Sound file { r with queue := queue } :=
  ⟨h.nodup, fun n hn => h.queued n (hqueue hn), h.referred, h.linked⟩

theorem next?_none (h : r.next? = (none, r')) :
    r' = { r with queue := [] } ∧ ∀ n ∈ r.queue, r.schemas.has n = true := by
  unfold Registry.next? at h
  split at h
  · next hempty =>
    cases h
    exact ⟨rfl, List.dropWhile_eq_nil_iff.1 hempty⟩
  · cases h

theorem next?_some {name : Text} (h : r.next? = (some name, r')) :
    ∃ before rest, r.queue = before ++ name :: rest ∧ r' = { r with queue := rest } ∧
      ∀ n ∈ before, r.schemas.has n = true := by
  unfold Registry.next? at h
  split at h
  · cases h
  · next name' rest hrest =>
    cases h
    refine ⟨r.queue.takeWhile fun name => r.schemas.has name, rest, ?_, rfl, fun n hn => ?_⟩
    · rw [← hrest, List.takeWhile_append_dropWhile]
    · exact List.mem_takeWhile_imp hn

/-- A name that is taken from the queue waits no longer, but it has got a schema. -/
theorem Pending.next (hp : Pending r) {name : Text} (hnext : r.next? = (some name, r'))
    (hext : Extends r' r'') (hhas : r''.schemas.has name = true) : Pending r'' := by
  obtain ⟨before, rest, hqueue, rfl, hbefore⟩ := next?_some hnext
  -- The names in front of the one that is taken are skipped, as they have schemas already.
  have hsplit : ∀ n ∈ r.queue, n ∈ rest ∨ r''.schemas.has n = true := by
    intro n hn
    rw [hqueue] at hn
    rcases List.mem_append.1 hn with hn | hn
    · exact Or.inr (hext.schemas n (hbefore n hn))
    · rcases List.mem_cons.1 hn with rfl | hn
      · exact Or.inr hhas
      · exact Or.inl hn
  obtain ⟨new, hreq, hnew⟩ := hext.required
  intro n hn
  rw [hreq] at hn
  rw [hnew]
  rcases List.mem_append.1 hn with hn | hn
  · rcases hp n hn with hn | hn
    · exact (hsplit n hn).imp_left (List.mem_append_left _)
    · exact Or.inr (hext.schemas n hn)
  · exact Or.inl (List.mem_append_right _ hn)

/-- Taking a name from the queue leaves less work, whatever is required after it. -/
theorem work_next_lt {name : Text} (hnext : r.next? = (some name, r')) (hext : Extends r' r'')
    (hle : r''.required.length ≤ (referredStructs file).length) :
    work file r'' < work file r := by
  obtain ⟨before, rest, hqueue, rfl, -⟩ := next?_some hnext
  have hlength : rest.length < r.queue.length := by
    rw [hqueue, List.length_append, List.length_cons]
    omega
  rw [hext.work_eq hle]
  unfold work
  dsimp only
  omega

/-- Expanding the next name keeps what is known about the names that wait, and leaves less work. -/
theorem expand_next (hfile : Resolves file) (hs : Sound file s.registry)
    (hp : Pending s.registry) {name : Text} (h : s.registry.next? = (some name, r)) :
    ∃ d, file.findStruct name = some d ∧
      ∃ t, Ends (expand d) { s with registry := r } () t ∧ Sound file t.registry ∧
        Pending t.registry ∧ work file t.registry < work file s.registry ∧
        ∀ ref, Known s.registry ref → Known t.registry ref := by
  obtain ⟨before, rest, hqueue, rfl, -⟩ := next?_some h
  have hname : name ∈ s.registry.queue := by simp [hqueue]
  have hrest : rest ⊆ s.registry.queue := fun n hn => by simp [hqueue, hn]
  obtain ⟨d, hd, rfl, hfit⟩ := hfile name (hs.referred name (hs.queued name hname))
  obtain ⟨_, t, ht, hsound, hext, hhas⟩ :=
    yields_expand (s := { s with registry := { s.registry with queue := rest } })
      (hs.withQueue hrest) hfit
  exact ⟨d, hd, t, ht, hsound, hp.next h hext hhas,
    work_next_lt h hext hsound.length_required_le, fun ref href => hext.known href⟩

/-! ## The whole expansion -/

/-- With a bound above the work that is left, the expansion succeeds and registers every required
    name. -/
theorem ends_expandRequired (hfile : Resolves file) (bound : Nat) (hs : Sound file s.registry)
    (hp : Pending s.registry) (hbound : work file s.registry < bound) :
    ∃ t, Ends (expandRequired file bound) s () t ∧ Sound file t.registry ∧
      (∀ ref, Known s.registry ref → Known t.registry ref) ∧
      ∀ n ∈ t.registry.required, t.registry.schemas.has n = true := by
  induction bound generalizing s with
  | zero => exact absurd hbound (Nat.not_lt_zero _)
  | succ bound ih =>
    unfold expandRequired
    simp only [ends_bind]
    rcases hnext : s.registry.next? with ⟨name, r⟩
    cases name with
    | none =>
      obtain ⟨rfl, hall⟩ := next?_none hnext
      -- Nothing waits any more, so every name that is pending has its schema.
      refine ⟨{ s with registry := { s.registry with queue := [] } },
        ⟨s, s, ends_get.2 ⟨rfl, rfl⟩, ?_⟩, hs.withQueue (List.nil_subset _), fun _ h => h,
        fun n hn => (hp n hn).elim (hall n) id⟩
      rw [hnext]
      exact ⟨(), _, ends_modify.2 rfl, ends_pure.2 ⟨rfl, rfl⟩⟩
    | some name =>
      obtain ⟨d, hd, t, ht, hsound, hpending, hwork, hknown⟩ := expand_next hfile hs hp hnext
      obtain ⟨u, hu, hsound', hknown', hall⟩ := ih hsound hpending (by omega)
      refine ⟨u, ⟨s, s, ends_get.2 ⟨rfl, rfl⟩, ?_⟩, hsound',
        fun ref h => hknown' ref (hknown ref h), hall⟩
      rw [hnext]
      refine ⟨(), _, ends_modify.2 rfl, ?_⟩
      simp only [hd, ends_bind]
      exact ⟨(), t, ht, hu⟩

end IdlBridge.Generation
