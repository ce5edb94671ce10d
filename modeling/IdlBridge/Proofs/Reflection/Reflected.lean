import IdlBridge.Proofs.Reflection.Proto
import IdlBridge.Proofs.Reflection.Thrift
import IdlBridge.Reflection

/-! # Reflected files

    The files that come out of a reflection, from sources of either language that include or import
    each other in any way.  What is loaded from a disk is such a set of sources, so everything said
    about reflected files holds of the outcome of loading a main file.
-/

namespace IdlBridge

/-- Some sources reflect to the file. -/
inductive Reflected (file : FileDesc) : Prop where
  | thrift {set : Thrift.SourceSet} {ns ns' : List Notice} : Ends set.reflect ns file ns' →
      Reflected file
  | proto {set : Proto.SourceSet} {ns ns' : List Notice} : Ends set.reflect ns file ns' →
      Reflected file

namespace Reflected

variable {file : FileDesc}

/-- Nothing in a reflected file points out of it. -/
theorem closed (h : Reflected file) : file.Closed := by
  cases h with
  | thrift h => exact Thrift.SourceSet.closed_of_reflect h
  | proto h => exact Proto.SourceSet.closed_of_reflect h

theorem ends_of_resolve {σ : Type} {reflect : List σ → Noted ReflectionError FileDesc}
    {loading : Except ReflectionError (List σ) × List Notice} {notices : List Notice}
    (h : Reflection.resolve reflect loading = (.ok file, notices)) :
    ∃ sources ns, loading = (.ok sources, ns) ∧ Ends (reflect sources) ns file notices := by
  obtain ⟨loaded, ns⟩ := loading
  cases loaded with
  | error e => cases h
  | ok sources => exact ⟨sources, ns, rfl, h⟩

theorem of_resolveThrift {loading : Except ReflectionError (List Thrift.Source) × List Notice}
    {notices : List Notice} (h : Reflection.resolveThrift loading = (.ok file, notices)) :
    Reflected file := by
  obtain ⟨_, _, -, h⟩ := ends_of_resolve h
  exact .thrift h

theorem of_resolveProto {loading : Except ReflectionError (List Proto.Source) × List Notice}
    {notices : List Notice} (h : Reflection.resolveProto loading = (.ok file, notices)) :
    Reflected file := by
  obtain ⟨_, _, -, h⟩ := ends_of_resolve h
  exact .proto h

/-- What a main file reflects to, with whatever it reaches on the disk. -/
theorem of_ofFile {place : Reflection.Place} {path : Text} {notices : List Notice}
    (h : Reflection.ofFile place path = (.ok file, notices)) : Reflected file := by
  unfold Reflection.ofFile at h
  dsimp only at h
  split at h
  · exact of_resolveThrift h
  · split at h
    · exact of_resolveProto h
    · cases h

end Reflected

end IdlBridge
