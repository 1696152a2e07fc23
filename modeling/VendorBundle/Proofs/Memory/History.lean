import VendorBundle.Proofs.Memory.Nodes
import VendorBundle.Proofs.Path.Components

/-!
# Histories of a file system in memory

Whatever is done to a file system, a place is kept, taken away, made a directory or written with
the next tick of the clock. So the time of modification tells the contents of files apart, within
one state and between states, as long as the clock does not run over.
-/

namespace VendorBundle.Memory

/-! ## Operations -/

/-- Something done to a file system, whether it succeeds or not. -/
inductive Operation where
  | addFile (path : Path) (content : ByteArray)
  | addDir (path : Path)
  | remove (path : Path)
  | write (path : Path) (content : ByteArray)
  | createDir (recursive : Bool) (path : Path)
  | removeFile (path : Path)
  | removeDir (path : Path)
  | copy (source path : Path)

/-- The state after a step that may fail. -/
def settle (m : Memory) : Except FileError Memory → Memory
  | .ok m' => m'
  | .error _ => m

namespace Operation

def path : Operation → Path
  | addFile path _ | addDir path | remove path | write path _ | createDir _ path | removeFile path
  | removeDir path | copy _ path => path

def run (m : Memory) : Operation → Memory
  | addFile path content => m.addFile path content
  | addDir path => m.addDir path
  | remove path => m.remove path
  | write path content => m.settle (m.write path content)
  | createDir recursive path => m.settle (m.createDir recursive path)
  | removeFile path => m.settle (m.removeFile path)
  | removeDir path => m.settle (m.removeDir path)
  | copy source path => m.settle (m.read source >>= m.write path)

end Operation

/-! ## What an operation can do -/

/-- What an operation on `target` can do to a place. -/
inductive Change (m m' : Memory) (target place : Place) : Prop where
  | kept (h : m'.node? place = m.node? place)
  | taken (hp : target <+: place) (h : m'.node? place = none)
  | opened (hp : place <+: target) (hn : m.node? place = none) (h : m'.node? place = some .dir)
  | written (hp : place = target) (content : ByteArray)
      (h : m'.node? place = some (.file content m.clock)) (hc : m'.clock = m.clock + 1)

/-- A state follows from another one by an operation on `target`. -/
structure Follows (m m' : Memory) (target : Place) : Prop where
  change : ∀ place, Change m m' target place
  clock : m'.clock = m.clock ∨ m'.clock = m.clock + 1

theorem Follows.refl (m : Memory) (target : Place) : Follows m m target :=
  ⟨fun _ => .kept rfl, .inl rfl⟩

theorem Change.of_getD {m m' : Memory} {target place : Place} (hp : place <+: target)
    (h : m'.node? place = some ((m.node? place).getD .dir)) : Change m m' target place := by
  cases hn : m.node? place with
  | none => exact .opened hp hn (by simpa [hn] using h)
  | some node => exact .kept (by simpa [hn] using h)

theorem follows_addDir (m : Memory) (path : Path) : Follows m (m.addDir path) path.resolved := by
  refine ⟨fun place => ?_, .inl rfl⟩
  have h := node?_addDir m path place
  by_cases hp : place <+: path.resolved
  · exact .of_getD hp (by rw [h, if_pos hp])
  · exact .kept (by rw [h, if_neg hp])

theorem follows_put (m : Memory) (place : Place) (content : ByteArray) :
    Follows m (m.put place content) place := by
  refine ⟨fun p => ?_, .inr rfl⟩
  have h := node?_put m place content p
  by_cases hp : place = p
  · exact .written hp.symm content (by rw [h, if_pos hp]) rfl
  · exact .kept (by rw [h, if_neg hp])

theorem clock_addFile (m : Memory) (path : Path) (content : ByteArray) :
    (m.addFile path content).clock = m.clock + 1 := by
  rw [addFile]
  split <;> rfl

theorem follows_addFile (m : Memory) (path : Path) (content : ByteArray) :
    Follows m (m.addFile path content) path.resolved := by
  refine ⟨fun p => ?_, .inr (clock_addFile m path content)⟩
  have h := node?_addFile m path content p
  by_cases hp : path.resolved = p
  · exact .written hp.symm content (by rw [h, if_pos hp]) (clock_addFile m path content)
  · rw [if_neg hp] at h
    by_cases hu : p <+: path.resolved
    · exact .of_getD hu (by rw [h, if_pos hu])
    · exact .kept (by rw [h, if_neg hu])

theorem follows_remove (m : Memory) (path : Path) : Follows m (m.remove path) path.resolved := by
  refine ⟨fun p => ?_, .inl rfl⟩
  have h := node?_remove m path p
  by_cases hp : path.resolved <+: p
  · exact .taken hp (by rw [h, if_pos hp])
  · exact .kept (by rw [h, if_neg hp])

/-- The state without one place. -/
def without (m : Memory) (place : Place) : Memory := { m with nodes := m.nodes.erase place }

theorem node?_without (m : Memory) (place p : Place) :
    (m.without place).node? p = if place = p then none else m.node? p :=
  Table.get?_erase m.nodes place p

theorem follows_without (m : Memory) (place : Place) : Follows m (m.without place) place := by
  refine ⟨fun p => ?_, .inl rfl⟩
  have h := node?_without m place p
  by_cases hp : place = p
  · exact .taken (hp ▸ List.prefix_refl _) (by rw [h, if_pos hp])
  · exact .kept (by rw [h, if_neg hp])

theorem follows_write (m : Memory) (path : Path) (content : ByteArray) :
    Follows m (m.settle (m.write path content)) path.resolved := by
  rw [write]
  split
  · exact follows_put m path.resolved content
  · exact .refl m _

theorem follows_createDir (m : Memory) (recursive : Bool) (path : Path) :
    Follows m (m.settle (m.createDir recursive path)) path.resolved := by
  rw [createDir]
  split
  · exact follows_addDir m path
  · exact .refl m _

theorem follows_removeFile (m : Memory) (path : Path) :
    Follows m (m.settle (m.removeFile path)) path.resolved := by
  rw [removeFile]
  split
  · exact follows_without m path.resolved
  · exact .refl m _
  · exact .refl m _

theorem follows_removeDir (m : Memory) (path : Path) :
    Follows m (m.settle (m.removeDir path)) path.resolved := by
  rw [removeDir]
  split
  · split
    · exact follows_without m path.resolved
    · exact .refl m _
  · exact .refl m _

/-- Every operation does no more than one of the four things to each place. -/
theorem Operation.follows (m : Memory) (op : Operation) :
    Follows m (op.run m) op.path.resolved := by
  cases op with
  | addFile path content => exact follows_addFile m path content
  | addDir path => exact follows_addDir m path
  | remove path => exact follows_remove m path
  | write path content => exact follows_write m path content
  | createDir recursive path => exact follows_createDir m recursive path
  | removeFile path => exact follows_removeFile m path
  | removeDir path => exact follows_removeDir m path
  | copy source path =>
      cases hr : m.read source with
      | ok content => simpa [run, Operation.path, hr, Bind.bind, Except.bind] using
          follows_write m path content
      | error e => simpa [run, hr, Bind.bind, Except.bind, settle] using Follows.refl m _

/-- A file system that was set up from an empty one by operations. -/
inductive Reachable : Memory → Prop where
  | empty (cwd : Path) : Reachable (.empty cwd)
  | step {m : Memory} (op : Operation) : Reachable m → m.clock ≤ (op.run m).clock →
      Reachable (op.run m)

/-- Files that are put one after another. -/
def addFiles (m : Memory) (files : List (Path × ByteArray)) : Memory :=
  files.foldl (fun m file => m.addFile file.1 file.2) m

theorem toNat_clock_addFile {m : Memory} (path : Path) (content : ByteArray)
    (hc : m.clock.toNat + 1 < UInt64.size) :
    (m.addFile path content).clock.toNat = m.clock.toNat + 1 := by
  rw [clock_addFile, UInt64.toNat_add]
  exact Nat.mod_eq_of_lt hc

/-- As long as the clock does not run over, files can be put one after another. -/
theorem Reachable.addFiles {m : Memory} (h : m.Reachable) (files : List (Path × ByteArray))
    (hc : m.clock.toNat + files.length < UInt64.size) : (m.addFiles files).Reachable := by
  induction files generalizing m with
  | nil => exact h
  | cons file files ih =>
      rw [List.length_cons] at hc
      have hone := toNat_clock_addFile (m := m) file.1 file.2 (by omega)
      have hnext : (m.addFile file.1 file.2).clock.toNat + files.length < UInt64.size := by omega
      refine ih (h.step (.addFile file.1 file.2) ?_) hnext
      exact UInt64.le_iff_toNat_le.mpr (hone ▸ Nat.le_succ _)

/-! ## Names -/

/-- Nothing stands at a place that no path leads to. -/
def Named (m : Memory) : Prop :=
  ∀ place node, m.node? place = some node → ∀ name ∈ place, IsName name

theorem named_iff {m : Memory} : m.Named ↔ ∀ key ∈ m.nodes.keys, ∀ name ∈ key, IsName name := by
  simp only [Named, Table.mem_keys, forall_exists_index]
  exact forall_congr' fun place => ⟨fun h node hn => h node hn, fun h node hn => h node hn⟩

instance (m : Memory) : Decidable m.Named := decidable_of_iff _ named_iff.symm

theorem Named.follows {m m' : Memory} {target : Place} (h : m.Named) (hf : Follows m m' target)
    (ht : ∀ name ∈ target, IsName name) : m'.Named := by
  intro place node hn name hm
  cases hf.change place with
  | kept hk => exact h place node (hk ▸ hn) name hm
  | taken _ hnone => simp [hnone] at hn
  | opened hp _ _ => exact ht name (hp.subset hm)
  | written hp _ _ _ => exact ht name (hp ▸ hm)

theorem named_empty (cwd : Path) : (empty cwd).Named := by
  have hnone : Named { cwd := cwd.resolved, nodes := ∅, clock := 1 } := fun _ _ hn => by
    simp [node?] at hn
  exact hnone.follows (follows_addDir _ cwd) fun _ hn => Path.isName_of_mem_resolved hn

theorem Named.run {m : Memory} (h : m.Named) (op : Operation) : (op.run m).Named :=
  h.follows (op.follows m) fun _ hn => Path.isName_of_mem_resolved hn

/-- Whatever is done to an empty file system leaves one with names only. -/
theorem named_history (cwd : Path) (ops : List Operation) :
    (ops.foldl Operation.run (empty cwd)).Named := by
  induction ops using List.reverseRecOn with
  | nil => exact named_empty cwd
  | append_singleton ops op ih =>
      rw [List.foldl_concat]
      exact ih.run op

theorem Reachable.named {m : Memory} (h : Reachable m) : m.Named := by
  induction h with
  | empty cwd => exact named_empty cwd
  | step op _ _ ih => exact ih.run op

/-! ## Times of modification -/

/-- The files of a region were written before the present tick, and those written at one time are
alike. -/
structure Dated (region : Place → Prop) (m : Memory) : Prop where
  past : ∀ place content time, region place → m.node? place = some (.file content time) →
    time < m.clock
  alike : ∀ place place' content content' time, region place → region place' →
    m.node? place = some (.file content time) → m.node? place' = some (.file content' time) →
    content = content'

/-- A file of a region that is older than an earlier state was there in that state. -/
structure Since (region : Place → Prop) (m m' : Memory) : Prop where
  clock : m.clock ≤ m'.clock
  old : ∀ place content time, region place → m'.node? place = some (.file content time) →
    time < m.clock → m.node? place = some (.file content time)

theorem lt_add_one {c : UInt64} (h : c ≤ c + 1) : c < c + 1 := by
  refine UInt64.lt_of_le_of_ne h fun he => ?_
  have := congrArg UInt64.toNat he
  rw [UInt64.toNat_add] at this
  have hlt := c.toNat_lt
  have hone : (1 : UInt64).toNat = 1 := rfl
  omega

variable {region : Place → Prop} {m m' : Memory} {target : Place}

theorem Dated.follows (h : Dated region m) (hf : Follows m m' target)
    (hc : m.clock ≤ m'.clock) : Dated region m' := by
  have hfile : ∀ place content time, m'.node? place = some (.file content time) →
      m.node? place = some (.file content time) ∨
        place = target ∧ time = m.clock ∧ m'.clock = m.clock + 1 := by
    intro place content time hn
    cases hf.change place with
    | kept hk => exact .inl (hk ▸ hn)
    | taken _ hnone => simp [hnone] at hn
    | opened _ _ hd => simp [hd] at hn
    | written hp c hw hclock =>
        rw [hw, Option.some.injEq, Node.file.injEq] at hn
        exact .inr ⟨hp, hn.2.symm, hclock⟩
  refine ⟨fun place content time hr hn => ?_, fun place place' content content' time hr hr' hn hn' => ?_⟩
  · rcases hfile place content time hn with hn | ⟨-, rfl, hclock⟩
    · exact UInt64.lt_of_lt_of_le (h.past place content time hr hn) hc
    · rw [hclock] at hc ⊢
      exact lt_add_one hc
  · rcases hfile place content time hn with ho | ⟨hp, ht, -⟩
    · rcases hfile place' content' time hn' with ho' | ⟨-, ht', -⟩
      · exact h.alike place place' content content' time hr hr' ho ho'
      · exact absurd (ht' ▸ h.past place content time hr ho) (UInt64.lt_irrefl _)
    · rcases hfile place' content' time hn' with ho' | ⟨hp', -, -⟩
      · exact absurd (ht ▸ h.past place' content' time hr' ho') (UInt64.lt_irrefl _)
      · rw [hp] at hn
        rw [hp', hn, Option.some.injEq, Node.file.injEq] at hn'
        exact hn'.1

theorem Since.follows {start : Memory} (h : Since region start m) (hf : Follows m m' target)
    (hc : m.clock ≤ m'.clock) : Since region start m' := by
  refine ⟨UInt64.le_trans h.clock hc, fun place content time hr hn ht => ?_⟩
  cases hf.change place with
  | kept hk => exact h.old place content time hr (hk ▸ hn) ht
  | taken _ hnone => simp [hnone] at hn
  | opened _ _ hd => simp [hd] at hn
  | written _ c hw _ =>
      rw [hw, Option.some.injEq, Node.file.injEq] at hn
      rw [← hn.2] at ht
      exact absurd (UInt64.lt_of_lt_of_le ht h.clock) (UInt64.lt_irrefl _)

theorem Since.refl (region : Place → Prop) (m : Memory) : Since region m m :=
  ⟨UInt64.le_refl _, fun _ _ _ _ hn _ => hn⟩

theorem Dated.congr (h : Dated region m) (hr : ∀ place, region place → m'.node? place = m.node? place)
    (hc : m.clock ≤ m'.clock) : Dated region m' := by
  refine ⟨fun place content time hp hn => ?_, fun place place' content content' time hp hp' hn hn' => ?_⟩
  · exact UInt64.lt_of_lt_of_le (h.past place content time hp (hr place hp ▸ hn)) hc
  · exact h.alike place place' content content' time hp hp' (hr place hp ▸ hn) (hr place' hp' ▸ hn')

theorem Since.congr {start : Memory} (h : Since region start m)
    (hr : ∀ place, region place → m'.node? place = m.node? place) (hc : m.clock ≤ m'.clock) :
    Since region start m' :=
  ⟨UInt64.le_trans h.clock hc, fun place content time hp hn ht =>
    h.old place content time hp (hr place hp ▸ hn) ht⟩

/-- A file with the time of modification of one that stood before a state stood there in it. -/
theorem Since.node?_of_same_time {old : Memory} (hs : Since region m m') (hd : Dated region old)
    (hc : old.clock ≤ m.clock) {place place' : Place} (hp : region place) (hp' : region place')
    {content content' : ByteArray} {time : UInt64}
    (hn : old.node? place = some (.file content time))
    (hn' : m'.node? place' = some (.file content' time)) :
    m.node? place' = some (.file content' time) :=
  hs.old place' content' time hp' hn'
    (UInt64.lt_of_lt_of_le (hd.past place content time hp hn) hc)

theorem Dated.mono (h : Dated region m) {region' : Place → Prop}
    (hr : ∀ place, region' place → region place) : Dated region' m :=
  ⟨fun place content time hp => h.past place content time (hr place hp),
    fun place place' content content' time hp hp' =>
      h.alike place place' content content' time (hr place hp) (hr place' hp')⟩

theorem Reachable.dated {m : Memory} (h : Reachable m) : Dated (fun _ => True) m := by
  induction h with
  | empty cwd =>
      have hnone : Dated (fun _ => True) { cwd := cwd.resolved, nodes := ∅, clock := 1 } :=
        ⟨fun _ _ _ _ hn => by simp [node?] at hn, fun _ _ _ _ _ _ _ hn => by simp [node?] at hn⟩
      exact hnone.follows (follows_addDir _ cwd) (UInt64.le_refl _)
  | step op _ hc ih => exact ih.follows (op.follows _) hc

end VendorBundle.Memory
