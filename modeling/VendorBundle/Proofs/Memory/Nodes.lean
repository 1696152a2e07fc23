import Mathlib.Data.List.Basic
import VendorBundle.Files.Memory
import VendorBundle.Proofs.Table

/-!
# What stands where after an operation

Each operation on a file system in memory changes what stands at a few places: the one it is for,
the directories above it, or what is below it.
-/

namespace VendorBundle.Memory

deriving instance DecidableEq for Memory

/-- What stands at a place. -/
def node? (m : Memory) (place : Place) : Option Node := m.nodes.get? place

theorem get?_eq (m : Memory) (path : Path) : m.get? path = m.node? path.resolved := rfl

/-! ## Directories on the way -/

theorem mem_above {place p : Place} : p ∈ above place ↔ p <+: place := by
  induction place generalizing p with
  | nil => simp [above]
  | cons name rest ih =>
      cases p with
      | nil => simp [above]
      | cons n p =>
          simp only [above, List.mem_append, List.mem_map, List.mem_singleton, List.cons_prefix_cons]
          constructor
          · rintro (⟨q, hq, hc⟩ | hc)
            · obtain ⟨rfl, rfl⟩ := List.cons.inj hc
              exact ⟨rfl, ih.mp hq⟩
            · exact absurd hc (by simp)
          · rintro ⟨rfl, hp⟩
            exact .inl ⟨p, ih.mpr hp, rfl⟩

theorem get?_foldl_insertIfNew (places : List Place) (nodes : Table Place Node) (k : Place) :
    (places.foldl (fun nodes p => nodes.insertIfNew p .dir) nodes).get? k =
      if k ∈ places then some ((nodes.get? k).getD .dir) else nodes.get? k := by
  induction places generalizing nodes with
  | nil => simp
  | cons p places ih =>
      rw [List.foldl_cons, ih, Table.get?_insertIfNew]
      by_cases hp : p = k
      · subst hp
        by_cases hm : p ∈ places <;> simp [hm]
      · by_cases hm : k ∈ places <;> simp [hm, hp, Ne.symm hp]

theorem get?_makeDirs (nodes : Table Place Node) (place k : Place) :
    (makeDirs nodes place).get? k =
      if k <+: place then some ((nodes.get? k).getD .dir) else nodes.get? k := by
  rw [makeDirs, get?_foldl_insertIfNew]
  simp only [mem_above]

/-! ## Setting up -/

theorem node?_addDir (m : Memory) (path : Path) (k : Place) :
    (m.addDir path).node? k =
      if k <+: path.resolved then some ((m.node? k).getD .dir) else m.node? k :=
  get?_makeDirs m.nodes path.resolved k

theorem node?_put (m : Memory) (place : Place) (content : ByteArray) (k : Place) :
    (m.put place content).node? k =
      if place = k then some (.file content m.clock) else m.node? k :=
  Table.get?_insert m.nodes place k (.file content m.clock)

theorem node?_remove (m : Memory) (path : Path) (k : Place) :
    (m.remove path).node? k = if path.resolved <+: k then none else m.node? k := by
  rw [node?, remove, Table.get?_filter]
  by_cases h : path.resolved <+: k
  · cases hk : m.nodes.get? k <;> simp [h]
  · have hp : path.resolved.isPrefixOf k = false := by
      rw [← Bool.not_eq_true, List.isPrefixOf_iff_prefix]
      exact h
    rw [if_neg h, node?]
    cases m.nodes.get? k <;> simp [hp]

theorem parent?_eq_some_iff {place p : Place} :
    parent? place = some p ↔ ∃ name, place = p ++ [name] := by
  rw [parent?]
  rcases List.eq_nil_or_concat' place with rfl | ⟨init, name, rfl⟩
  · simp
  · simp [List.isEmpty_iff]

theorem node?_addFile (m : Memory) (path : Path) (content : ByteArray) (k : Place) :
    (m.addFile path content).node? k =
      if path.resolved = k then some (.file content m.clock)
      else if k <+: path.resolved then some ((m.node? k).getD .dir) else m.node? k := by
  rw [addFile]
  cases hp : parent? path.resolved with
  | none =>
      have hnil : path.resolved = [] := by
        rcases List.eq_nil_or_concat' path.resolved with h | ⟨init, name, h⟩
        · exact h
        · rw [parent?_eq_some_iff.mpr ⟨name, h⟩] at hp
          exact absurd hp (by simp)
      simp only [node?_put, hnil]
      by_cases hk : [] = k
      · simp [hk]
      · have : ¬ k <+: [] := fun h => hk (List.prefix_nil.mp h).symm
        simp [hk, this]
  | some p =>
      obtain ⟨name, hname⟩ := parent?_eq_some_iff.mp hp
      simp only [node?_put]
      by_cases hk : path.resolved = k
      · simp [hk]
      · rw [if_neg hk, if_neg hk]
        have hiff : k <+: path.resolved ↔ k <+: p := by
          rw [hname, List.prefix_concat_iff]
          exact ⟨fun h => h.resolve_left fun he => hk (by rw [hname, he]), .inr⟩
        simp only [hiff]
        exact get?_makeDirs m.nodes p k

/-! ## Reading -/

theorem names_of_dir {m : Memory} {path : Path} (h : m.node? path.resolved = some .dir) :
    Files.names m path = .ok (m.children path.resolved) := by
  simp [Files.names, names, get?_eq, h]

theorem metadata_of_dir {m : Memory} {path : Path} (h : m.node? path.resolved = some .dir) :
    Files.metadata m path = .ok ⟨0, true, none⟩ := by
  simp [Files.metadata, metadata, get?_eq, h]

theorem metadata_of_file {m : Memory} {path : Path} {content : ByteArray} {time : UInt64}
    (h : m.node? path.resolved = some (.file content time)) :
    Files.metadata m path = .ok ⟨content.size.toUInt64, false, some time⟩ := by
  simp [Files.metadata, metadata, get?_eq, h]

theorem metadata_of_none {m : Memory} {path : Path} (h : m.node? path.resolved = none) :
    Files.metadata m path = .error (.notFound path) := by
  simp [Files.metadata, metadata, get?_eq, h]

theorem read_of_file {m : Memory} {path : Path} {content : ByteArray} {time : UInt64}
    (h : m.node? path.resolved = some (.file content time)) :
    Files.read m path = .ok content := by
  simp [Files.read, read, get?_eq, h]

theorem isDir_iff {m : Memory} {path : Path} :
    Files.isDir m path = true ↔ m.node? path.resolved = some .dir := by
  rw [Files.isDir]
  match h : m.node? path.resolved with
  | none => simp [metadata_of_none h]
  | some .dir => simp [metadata_of_dir h]
  | some (.file content time) => simp [metadata_of_file h]

theorem isFile_iff {m : Memory} {path : Path} :
    Files.isFile m path = true ↔
      ∃ content time, m.node? path.resolved = some (.file content time) := by
  rw [Files.isFile]
  match h : m.node? path.resolved with
  | none => simp [metadata_of_none h]
  | some .dir => simp [metadata_of_dir h, Metadata.isFile]
  | some (.file content time) => simp [metadata_of_file h, Metadata.isFile]

/-- The name that a key of the node table adds to a place. -/
theorem child_eq_some_iff {place key : Place} {name : String} :
    (if parent? key = some place then key.getLast? else none) = some name ↔
      key = place ++ [name] := by
  constructor
  · intro hn
    split at hn
    · rename_i hp
      obtain ⟨n, rfl⟩ := parent?_eq_some_iff.mp hp
      rw [List.getLast?_concat, Option.some.injEq] at hn
      rw [hn]
    · exact absurd hn (by simp)
  · rintro rfl
    rw [if_pos (parent?_eq_some_iff.mpr ⟨name, rfl⟩), List.getLast?_concat]

theorem mem_children {m : Memory} {place : Place} {name : String} :
    name ∈ m.children place ↔ ∃ node, m.node? (place ++ [name]) = some node := by
  simp only [node?, ← Table.mem_keys, children, List.mem_filterMap, child_eq_some_iff,
    exists_eq_right]

theorem compare_append_left (place : Place) (a b : Place) :
    compare (place ++ a) (place ++ b) = compare a b := by
  induction place with
  | nil => rfl
  | cons name place ih =>
      change List.compareLex compare (name :: (place ++ a)) (name :: (place ++ b)) = _
      rw [List.compareLex_cons_cons, Std.ReflOrd.compare_self]
      exact ih

theorem children_ascending (m : Memory) (place : Place) :
    (m.children place).Pairwise fun a b => compare a b = .lt := by
  rw [children, List.pairwise_filterMap]
  refine (Table.keys_ascending m.nodes).imp fun {k k'} hlt a ha b hb => ?_
  rw [child_eq_some_iff.mp ha, child_eq_some_iff.mp hb, compare_append_left] at hlt
  change (List.compareLex compare [a] [b]) = .lt at hlt
  rw [List.compareLex_cons_cons] at hlt
  cases hc : compare a b with
  | lt => rfl
  | eq =>
      rw [hc] at hlt
      exact absurd hlt nofun
  | gt => simp [hc] at hlt

/-! ## Writing -/

theorem parentHolds_iff {m : Memory} {place : Place} {test : Node → Bool} :
    m.parentHolds place test = true ↔
      ∃ p name node, place = p ++ [name] ∧ m.node? p = some node ∧ test node = true := by
  rw [parentHolds]
  cases hp : parent? place with
  | none =>
      simp only [Bool.false_eq_true, false_iff, not_exists, not_and]
      rintro p name node rfl
      simp [parent?] at hp
  | some p =>
      obtain ⟨name, rfl⟩ := parent?_eq_some_iff.mp hp
      simp only [Option.any_eq_true]
      constructor
      · rintro ⟨node, hn, ht⟩
        exact ⟨p, name, node, rfl, hn, ht⟩
      · rintro ⟨p', name', node, he, hn, ht⟩
        obtain ⟨rfl, -⟩ := List.append_inj' he rfl
        exact ⟨node, hn, ht⟩

end VendorBundle.Memory
