import VendorBundle.Proofs.Effect
import VendorBundle.Proofs.Memory.History

/-!
# Outcomes of operations in memory

Writing to a file system in memory either fails and changes nothing or moves to the state that the
operation describes.
-/

namespace VendorBundle.Memory

open Effect

theorem outcome_step (f : Memory → Except FileError Memory) (m : Memory) :
    outcome (step f) m = ((f m).map fun _ => (), m.settle (f m)) := by
  rw [step, outcome_bind_of_ok (outcome_get m)]
  cases f m <;> rfl

theorem outcome_write (path : Path) (content : ByteArray) (m : Memory) :
    outcome (Files.write path content : Effect Memory FileError Unit) m =
      ((m.write path content).map fun _ => (), m.settle (m.write path content)) :=
  outcome_step (·.write path content) m

theorem outcome_createDir (path : Path) (m : Memory) :
    outcome (Files.createDir true path : Effect Memory FileError Unit) m =
      (.ok (), m.addDir path) := by
  refine (outcome_step (·.createDir true path) m).trans ?_
  simp [createDir, Except.map, settle]

theorem outcome_removeFile (path : Path) (m : Memory) :
    outcome (Files.removeFile path : Effect Memory FileError Unit) m =
      ((m.removeFile path).map fun _ => (), m.settle (m.removeFile path)) :=
  outcome_step (·.removeFile path) m

theorem outcome_removeDir (path : Path) (m : Memory) :
    outcome (Files.removeDir path : Effect Memory FileError Unit) m =
      ((m.removeDir path).map fun _ => (), m.settle (m.removeDir path)) :=
  outcome_step (·.removeDir path) m

/-! ## Results by what stands at the place -/

variable {m : Memory} {path : Path}

theorem removeFile_of_file {content : ByteArray} {time : UInt64}
    (h : m.node? path.resolved = some (.file content time)) :
    m.removeFile path = .ok (m.without path.resolved) := by
  simp only [removeFile, get?_eq, h]
  rfl

theorem removeFile_of_dir (h : m.node? path.resolved = some .dir) :
    m.removeFile path = .error (.refused .removeFile path "is a directory") := by
  simp [removeFile, get?_eq, h]

theorem removeFile_of_none (h : m.node? path.resolved = none) :
    m.removeFile path = .error (.notFound path) := by
  simp [removeFile, get?_eq, h]

theorem removeDir_of_dir (h : m.node? path.resolved = some .dir) :
    m.removeDir path = if (m.children path.resolved).isEmpty then .ok (m.without path.resolved)
      else .error (.refused .removeDir path "not empty") := by
  simp only [removeDir, get?_eq, h]
  rfl

theorem removeDir_of_not_dir (h : m.node? path.resolved ≠ some .dir) :
    m.removeDir path = .error (.notFound path) := by
  rw [removeDir, get?_eq]
  split
  · rename_i hd
    exact absurd hd h
  · rfl

theorem write_of_parent {place : Place} {name : String} (hp : path.resolved = place ++ [name])
    (content : ByteArray) : m.write path content =
      if m.node? place = some .dir then .ok (m.put path.resolved content)
      else .error (.notFound path) := by
  rw [write]
  split
  · rename_i h
    obtain ⟨p, n, node, he, hn, ht⟩ := parentHolds_iff.mp h
    rw [hp] at he
    obtain ⟨rfl, -⟩ := List.append_inj' he rfl
    cases node with
    | dir => rw [if_pos hn]
    | file content time => simp at ht
  · rename_i h
    rw [if_neg fun hd => h (parentHolds_iff.mpr ⟨place, name, .dir, hp, hd, rfl⟩)]

end VendorBundle.Memory
