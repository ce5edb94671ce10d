import IdlBridge.Proofs.Generation.Payloads

/-! # The worklist

    A registry is called from many places: names are required, schemas are registered, and names are
    taken from the queue, in any order.  What such a run comes to is told by the names that have
    been returned and those that wait (`Accounts`).

    The expansion is one such run: `Drains` is the loop without its bound.
-/

namespace IdlBridge.Generation

open OpenApi Object

variable {file : FileDesc} {r r' r₀ : Registry Object} {s t : Session}

/-- A call to a registry. -/
inductive Call where
  | meet (d : Demand)
  | next

/-- The name that a call requires. -/
def Call.required? : Call → Option Text
  | .meet (.require name) => some name
  | _ => none

/-- The names that calls require, in the order in which they are first required. -/
def requiredNames (calls : List Call) : List Text :=
  (calls.filterMap Call.required?).foldl Text.insertNew []

/-- A registry, and the names that it has returned. -/
structure History where
  registry : Registry Object
  returned : List Text

namespace History

variable {h : History}

/-- The registry before it is called. -/
def start : History := ⟨.empty, []⟩

/-- What a call does to a registry, and whether it returns a name. -/
def call (h : History) : Call → History
  | .meet d => ⟨d.meet h.registry, h.returned⟩
  | .next => ⟨h.registry.next?.2, h.returned ++ h.registry.next?.1.toList⟩

/-- Calls one after the other. -/
def run (h : History) (calls : List Call) : History :=
  calls.foldl call h

/-- What is known of the names that have been required: they are returned in this order, and none
    is lost. -/
structure Accounts (h : History) : Prop where
  nodup : h.registry.required.Nodup
  order : (h.returned ++ h.registry.queue).Sublist h.registry.required
  covered : ∀ n ∈ h.registry.required,
    n ∈ h.returned ∨ n ∈ h.registry.queue ∨ h.registry.schemas.has n = true

theorem Accounts.require (hacc : h.Accounts) (name : Text) :
    Accounts ⟨h.registry.require name, h.returned⟩ := by
  unfold Registry.require
  by_cases hold : name ∈ h.registry.required
  · rw [if_pos hold]
    exact hacc
  · rw [if_neg hold]
    constructor
    · have hnodup := Text.nodup_insertNew hacc.nodup name
      rwa [Text.insertNew, if_neg hold] at hnodup
    · show (h.returned ++ (h.registry.queue ++ [name])).Sublist (h.registry.required ++ [name])
      rw [← List.append_assoc]
      exact hacc.order.append_right [name]
    · intro n hn
      rcases List.mem_append.1 hn with hn | hn
      · rcases hacc.covered n hn with hn | hn | hn
        · exact Or.inl hn
        · exact Or.inr (Or.inl (List.mem_append_left _ hn))
        · exact Or.inr (Or.inr hn)
      · exact Or.inr (Or.inl (List.mem_append_right _ hn))

theorem Accounts.add (hacc : h.Accounts) (name : Text) (schema : Object) :
    Accounts ⟨(h.registry.add name schema).2, h.returned⟩ := by
  unfold Registry.add
  by_cases hold : h.registry.schemas.has name = true
  · rw [if_pos hold]
    exact hacc
  · rw [if_neg hold]
    refine ⟨hacc.nodup, hacc.order, fun n hn => ?_⟩
    rcases hacc.covered n hn with hn | hn | hn
    · exact Or.inl hn
    · exact Or.inr (Or.inl hn)
    · exact Or.inr (Or.inr (by simp [hn]))

theorem Accounts.next (hacc : h.Accounts) : (h.call .next).Accounts := by
  unfold call
  rcases hnext : h.registry.next? with ⟨name, r⟩
  cases name with
  | none =>
    obtain ⟨rfl, hall⟩ := next?_none hnext
    refine ⟨hacc.nodup, ?_, fun n hn => ?_⟩
    · show (h.returned ++ [] ++ []).Sublist h.registry.required
      simpa using (List.sublist_append_left _ _).trans hacc.order
    · rcases hacc.covered n hn with hn | hn | hn
      · exact Or.inl (List.mem_append_left _ hn)
      · exact Or.inr (Or.inr (hall n hn))
      · exact Or.inr (Or.inr hn)
  | some name =>
    obtain ⟨before, rest, hqueue, rfl, hbefore⟩ := next?_some hnext
    refine ⟨hacc.nodup, ?_, fun n hn => ?_⟩
    · -- The names that are passed over have schemas, and are not returned.
      have hsub : (name :: rest).Sublist h.registry.queue := by
        rw [hqueue]
        exact List.sublist_append_right _ _
      show (h.returned ++ [name] ++ rest).Sublist h.registry.required
      rw [List.append_assoc, List.singleton_append]
      exact ((List.Sublist.refl _).append hsub).trans hacc.order
    · rcases hacc.covered n hn with hn | hn | hn
      · exact Or.inl (List.mem_append_left _ hn)
      · rw [hqueue] at hn
        rcases List.mem_append.1 hn with hn | hn
        · exact Or.inr (Or.inr (hbefore n hn))
        · rcases List.mem_cons.1 hn with rfl | hn
          · exact Or.inl (List.mem_append_right _ (List.mem_singleton_self n))
          · exact Or.inr (Or.inl hn)
      · exact Or.inr (Or.inr hn)

theorem Accounts.run (hacc : h.Accounts) (calls : List Call) : (h.run calls).Accounts := by
  induction calls generalizing h with
  | nil => exact hacc
  | cons c rest ih =>
    apply ih
    cases c with
    | meet d =>
      cases d with
      | require name => exact hacc.require name
      | register name schema => exact hacc.add name schema
    | next => exact hacc.next

end History

/-- What a run of calls comes to, whatever the calls and their order. -/
structure Orderly (calls : List Call) : Prop where
  /-- No name is returned twice. -/
  once : (History.start.run calls).returned.Nodup
  /-- Names are returned in the order in which they are first required. -/
  order : (History.start.run calls).returned.Sublist (requiredNames calls)
  /-- A name that is returned next has no schema. -/
  fresh : ∀ name r, (History.start.run calls).registry.next? = (some name, r) →
    (History.start.run calls).registry.schemas.has name = false
  /-- A schema stays as it is, whatever calls follow. -/
  stable : ∀ more n o, (History.start.run calls).registry.schemas.get? n = some o →
    (History.start.run (calls ++ more)).registry.schemas.get? n = some o
  /-- When no name is returned, every required name has been returned or has a schema. -/
  complete : ∀ r, (History.start.run calls).registry.next? = (none, r) →
    ∀ n ∈ requiredNames calls, n ∈ (History.start.run calls).returned ∨
      (History.start.run calls).registry.schemas.has n = true

/-- The names that may still be taken off the queue: those that wait, and those that structs of the
    file refer to and that have not been required. -/
def left (file : FileDesc) (r : Registry Object) : Nat :=
  r.queue.length + ((referredStructs file).filter (· ∉ r.required)).length

/-- The demand requires no other names than those that structs of the file refer to. -/
def Refers (file : FileDesc) (d : Demand) : Prop :=
  ∀ n, d = .require n → n ∈ referredStructs file

end IdlBridge.Generation
