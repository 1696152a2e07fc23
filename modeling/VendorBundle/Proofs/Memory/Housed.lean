import VendorBundle.Proofs.Memory.Effect
import VendorBundle.Proofs.Tree.Listing

/-!
# Whether a file system stays a tree

In a tree every place above a node is a directory. An operation breaks a tree in two ways: it makes
a directory or file below a file, since making directories passes over what stands on the way, or it
puts a file over a directory that holds something. No other operation does, and one that fails
changes nothing, so a run keeps a tree exactly as long as none of its operations does either.
-/

namespace VendorBundle.Memory

open Effect

/-! ## Trees -/

/-- Every place above a node is a directory. -/
def Housed (m : Memory) : Prop :=
  ∀ place node, m.node? place = some node →
    ∀ above, above <+: place → above ≠ place → m.node? above = some .dir

/-- It is enough that the place right above each node is a directory. -/
theorem housed_iff_isTreeAt {m : Memory} : m.Housed ↔ m.IsTreeAt [] := by
  constructor
  · intro h place name node _ hn
    exact h _ node hn place (List.prefix_append _ _) (by simp)
  · rintro h place node hn above ⟨rest, rfl⟩ hne
    exact h.dir_above List.nil_prefix (by simpa using hne) hn

instance (m : Memory) : Decidable m.Housed := decidable_of_iff _ housed_iff_isTreeAt.symm

/-- Somewhere above a place stands a file. -/
def BelowFile (m : Memory) (place : Place) : Prop :=
  ∃ above content time, above <+: place ∧ above ≠ place ∧
    m.node? above = some (.file content time)

/-- Something stands right below a place. -/
def Occupied (m : Memory) (place : Place) : Prop :=
  ∃ name node, m.node? (place ++ [name]) = some node

variable {m : Memory} {place : Place}

/-- Whatever stands below a place of a tree, something stands right below it. -/
theorem Housed.occupied (h : m.Housed) {below : Place} {node : Node} (hp : place <+: below)
    (hne : place ≠ below) (hn : m.node? below = some node) : m.Occupied place := by
  obtain ⟨rest, rfl⟩ := hp
  cases rest with
  | nil => simp at hne
  | cons name rest =>
      by_cases hrest : rest = []
      · exact ⟨name, node, hrest ▸ hn⟩
      · refine ⟨name, .dir, h _ node hn (place ++ [name]) ⟨rest, by simp⟩ ?_⟩
        simpa using Ne.symm hrest

/-- Nothing stands below a file of a tree. -/
theorem Housed.not_occupied (h : m.Housed) {content : ByteArray} {time : UInt64}
    (hf : m.node? place = some (.file content time)) : ¬ m.Occupied place := by
  rintro ⟨name, node, hn⟩
  cases hf.symm.trans (h _ node hn place (List.prefix_append _ _) (by simp))

theorem housed_empty (cwd : Path) : (empty cwd).Housed := by
  intro place node hn above hp hne
  rw [empty, node?_addDir] at hn ⊢
  split at hn
  · rename_i hle
    rw [if_pos (hp.trans hle)]
    rfl
  · simp [node?] at hn

/-! ## Operations and their results -/

namespace Operation

/-- What becomes of a file system by an operation, when it succeeds. -/
def result (m : Memory) : Operation → Except FileError Memory
  | addFile path content => .ok (m.addFile path content)
  | addDir path => .ok (m.addDir path)
  | remove path => .ok (m.remove path)
  | write path content => m.write path content
  | createDir recursive path => m.createDir recursive path
  | removeFile path => m.removeFile path
  | removeDir path => m.removeDir path
  | copy source path => m.read source >>= m.write path

theorem run_eq (m : Memory) (op : Operation) : op.run m = m.settle (op.result m) := by
  cases op <;> rfl

/-- An operation as a program. -/
def effect : Operation → Effect Memory FileError Unit
  | addFile path content => modify (·.addFile path content)
  | addDir path => modify (·.addDir path)
  | remove path => modify (·.remove path)
  | write path content => Files.write path content
  | createDir recursive path => Files.createDir recursive path
  | removeFile path => Files.removeFile path
  | removeDir path => Files.removeDir path
  | copy source path => Files.copy source path

theorem outcome_effect (m : Memory) (op : Operation) :
    outcome op.effect m = ((op.result m).map fun _ => (), op.run m) := by
  cases op with
  | addFile path content => rfl
  | addDir path => rfl
  | remove path => rfl
  | write path content => exact outcome_write path content m
  | createDir recursive path => exact outcome_step (·.createDir recursive path) m
  | removeFile path => exact outcome_removeFile path m
  | removeDir path => exact outcome_removeDir path m
  | copy source path =>
      have hlook := outcome_look (Files.read · source) m
      cases hr : m.read source with
      | ok bytes =>
          rw [show Files.read m source = .ok bytes from hr] at hlook
          rw [effect, Files.copy, outcome_bind_of_ok hlook, outcome_write]
          simp only [result, run, hr, Bind.bind, Except.bind]
      | error error =>
          rw [show Files.read m source = .error error from hr] at hlook
          rw [effect, Files.copy, outcome_bind_of_error hlook]
          simp only [result, run, hr, Bind.bind, Except.bind, Except.map, settle]

/-- An operation that makes the directories above its place. -/
def makesDirs : Operation → Bool
  | addFile .. | addDir _ | createDir .. => true
  | _ => false

/-- An operation that puts a file at its place. -/
def putsFile : Operation → Bool
  | addFile .. | write .. | copy .. => true
  | _ => false

/-- How an operation that succeeds makes a tree none. -/
inductive Breaks (m : Memory) (op : Operation) : Prop where
  /-- It makes its place below a file. -/
  | belowFile {m' : Memory} (hok : op.result m = .ok m') (hmakes : op.makesDirs = true)
      (h : m.BelowFile op.path.resolved)
  /-- It puts a file where a directory holds something. -/
  | overDirectory {m' : Memory} (hok : op.result m = .ok m') (hputs : op.putsFile = true)
      (h : m.Occupied op.path.resolved)

theorem breaks_iff {op : Operation} {m' : Memory} (hok : op.result m = .ok m') :
    op.Breaks m ↔ op.makesDirs = true ∧ m.BelowFile op.path.resolved ∨
      op.putsFile = true ∧ m.Occupied op.path.resolved := by
  constructor
  · rintro (⟨-, hmakes, h⟩ | ⟨-, hputs, h⟩)
    · exact .inl ⟨hmakes, h⟩
    · exact .inr ⟨hputs, h⟩
  · rintro (⟨hmakes, h⟩ | ⟨hputs, h⟩)
    · exact .belowFile hok hmakes h
    · exact .overDirectory hok hputs h

theorem not_breaks_of_error {op : Operation} {error : FileError} (he : op.result m = .error error) :
    ¬ op.Breaks m := by
  rintro (⟨hok, -, -⟩ | ⟨hok, -, -⟩)
  · cases he.symm.trans hok
  · cases he.symm.trans hok

end Operation

/-! ## Operations that succeed -/

variable {m' : Memory} {path : Path}

theorem write_eq_ok {content : ByteArray} (hw : m.write path content = .ok m') :
    ∃ place name, path.resolved = place ++ [name] ∧ m.node? place = some .dir ∧
      m' = m.put path.resolved content := by
  rw [write] at hw
  split at hw
  · rename_i hparent
    obtain ⟨place, name, node, hp, hn, ht⟩ := parentHolds_iff.mp hparent
    refine ⟨place, name, hp, ?_, (Except.ok.inj hw).symm⟩
    cases node with
    | dir => exact hn
    | file content time => simp at ht
  · cases hw

theorem createDir_eq_ok {recursive : Bool} (hc : m.createDir recursive path = .ok m') :
    m.addDir path = m' := by
  rw [createDir] at hc
  split at hc
  · exact Except.ok.inj hc
  · cases hc

theorem removeFile_eq_ok (hr : m.removeFile path = .ok m') :
    ∃ content time, m.node? path.resolved = some (.file content time) ∧
      m.without path.resolved = m' := by
  rw [removeFile] at hr
  split at hr
  · rename_i content time hf
    exact ⟨content, time, hf, Except.ok.inj hr⟩
  · cases hr
  · cases hr

theorem removeDir_eq_ok (hr : m.removeDir path = .ok m') :
    ¬ m.Occupied path.resolved ∧ m.without path.resolved = m' := by
  rw [removeDir] at hr
  split at hr
  · split at hr
    · rename_i hempty
      refine ⟨?_, Except.ok.inj hr⟩
      rintro ⟨name, node, hn⟩
      have hname := mem_children.mpr ⟨node, hn⟩
      rw [List.isEmpty_iff.mp hempty] at hname
      cases hname
    · cases hr
  · cases hr

/-! ## One operation -/

/-- A place is filled, and directories are made above it where nothing stands. -/
structure FilledAt (m m' : Memory) (place : Place) (node : Node) : Prop where
  here : m'.node? place = some node
  above : ∀ p, p <+: place → p ≠ place → m'.node? p = some ((m.node? p).getD .dir)
  aside : ∀ p, ¬ p <+: place → m'.node? p = m.node? p

namespace FilledAt

variable {node : Node}

/-- If a tree is left, no file stood above the place. -/
theorem not_belowFile (hm : FilledAt m m' place node) (h : m'.Housed) : ¬ m.BelowFile place := by
  rintro ⟨above, content, time, hp, hne, hf⟩
  have hdir := h place node hm.here above hp hne
  rw [hm.above above hp hne, hf] at hdir
  simp at hdir

/-- If a tree is left, nothing stands below a place that became a file. -/
theorem not_occupied (hm : FilledAt m m' place node) (h : m'.Housed) (hnode : node ≠ .dir) :
    ¬ m.Occupied place := by
  rintro ⟨name, below, hn⟩
  have hlong : ¬ place ++ [name] <+: place := fun hp => absurd hp.length_le (by simp)
  have hdir := h _ below ((hm.aside _ hlong).trans hn) place (List.prefix_append _ _) (by simp)
  exact hnode (Option.some.inj (hm.here.symm.trans hdir))

/-- Where no file stood above the place, directories do: they stood there, or they were made. -/
theorem dir_above (hm : FilledAt m m' place node) (hclear : ¬ m.BelowFile place) {p : Place}
    (hp : p <+: place) (hne : p ≠ place) : m'.node? p = some .dir := by
  rw [hm.above p hp hne]
  cases hn : m.node? p with
  | none => rfl
  | some old =>
      cases old with
      | dir => rfl
      | file content time => exact absurd ⟨p, content, time, hp, hne, hn⟩ hclear

theorem housed (hm : FilledAt m m' place node) (h : m.Housed) (hclear : ¬ m.BelowFile place)
    (hfree : node ≠ .dir → ¬ m.Occupied place) : m'.Housed := by
  intro p n hn above hp hne
  by_cases hle : p <+: place
  · refine hm.dir_above hclear (hp.trans hle) ?_
    rintro rfl
    exact hne (hp.eq_of_length_le hle.length_le)
  · rw [hm.aside p hle] at hn
    have hdir := h p n hn above hp hne
    by_cases he : above = place
    · subst he
      rw [hm.here]
      by_contra hnode
      exact hfree (fun hd => hnode (by rw [hd])) (h.occupied hp hne hn)
    · by_cases ha : above <+: place
      · exact hm.dir_above hclear ha he
      · rw [hm.aside above ha, hdir]

end FilledAt

/-- Filling a place leaves a tree if no file stands above it and, unless it becomes a directory,
nothing below it. -/
theorem Housed.filledAt_iff (h : m.Housed) {node : Node} (hm : FilledAt m m' place node) :
    m'.Housed ↔ ¬ m.BelowFile place ∧ (node ≠ .dir → ¬ m.Occupied place) :=
  ⟨fun h' => ⟨hm.not_belowFile h', hm.not_occupied h'⟩, fun hs => hm.housed h hs.1 hs.2⟩

theorem ne_of_not_above {p : Place} (hp : ¬ p <+: place) : place ≠ p := by
  rintro rfl
  exact hp List.prefix_rfl

theorem filledAt_addDir (m : Memory) (path : Path) :
    FilledAt m (m.addDir path) path.resolved ((m.node? path.resolved).getD .dir) where
  here := by rw [node?_addDir, if_pos List.prefix_rfl]
  above p hp _ := by rw [node?_addDir, if_pos hp]
  aside p hp := by rw [node?_addDir, if_neg hp]

theorem filledAt_addFile (m : Memory) (path : Path) (content : ByteArray) :
    FilledAt m (m.addFile path content) path.resolved (.file content m.clock) where
  here := by rw [node?_addFile, if_pos rfl]
  above p hp hne := by rw [node?_addFile, if_neg (Ne.symm hne), if_pos hp]
  aside p hp := by rw [node?_addFile, if_neg (ne_of_not_above hp), if_neg hp]

theorem Housed.addDir_iff (h : m.Housed) (path : Path) :
    (m.addDir path).Housed ↔ ¬ m.BelowFile path.resolved := by
  rw [h.filledAt_iff (filledAt_addDir m path)]
  refine and_iff_left fun hnode => ?_
  cases hn : m.node? path.resolved with
  | none => simp [hn] at hnode
  | some node =>
      cases node with
      | dir => simp [hn] at hnode
      | file content time => exact h.not_occupied hn

theorem Housed.addFile_iff (h : m.Housed) (path : Path) (content : ByteArray) :
    (m.addFile path content).Housed ↔
      ¬ m.BelowFile path.resolved ∧ ¬ m.Occupied path.resolved := by
  rw [h.filledAt_iff (filledAt_addFile m path content)]
  simp

/-- A file is written into a directory only. -/
theorem Housed.write_iff (h : m.Housed) {content : ByteArray}
    (hw : m.write path content = .ok m') : m'.Housed ↔ ¬ m.Occupied path.resolved := by
  obtain ⟨place, name, hp, hd, rfl⟩ := write_eq_ok hw
  have hdirs : ∀ p, p <+: path.resolved → p ≠ path.resolved → m.node? p = some .dir := by
    intro p hpre hne
    rw [hp, List.prefix_concat_iff, ← hp] at hpre
    have hpre := hpre.resolve_left hne
    by_cases he : p = place
    · rw [he, hd]
    · exact h place .dir hd p hpre he
  have hfilled : FilledAt m (m.put path.resolved content) path.resolved
      (.file content m.clock) := by
    refine ⟨by rw [node?_put, if_pos rfl], fun p hpre hne => ?_, fun p hpre => ?_⟩
    · rw [node?_put, if_neg (Ne.symm hne), hdirs p hpre hne, Option.getD_some]
    · rw [node?_put, if_neg (ne_of_not_above hpre)]
  have hclear : ¬ m.BelowFile path.resolved := by
    rintro ⟨above, c, t, hpre, hne, hf⟩
    cases (hdirs above hpre hne).symm.trans hf
  simp [h.filledAt_iff hfilled, hclear]

theorem Housed.without (h : m.Housed) (hfree : ¬ m.Occupied place) :
    (m.without place).Housed := by
  intro p node hn above hp hne
  rw [node?_without] at hn ⊢
  split at hn
  · cases hn
  · rw [if_neg, h p node hn above hp hne]
    rintro rfl
    exact hfree (h.occupied hp hne hn)

theorem Housed.remove (h : m.Housed) (path : Path) : (m.remove path).Housed := by
  intro place node hn above hp hne
  rw [node?_remove] at hn ⊢
  split at hn
  · cases hn
  · rename_i hout
    rw [if_neg fun hin => hout (hin.trans hp), h place node hn above hp hne]

theorem Operation.run_of_ok {op : Operation} (hok : op.result m = .ok m') :
    op.run m = m' := by
  rw [run_eq, hok, settle]

theorem Operation.run_of_error {op : Operation} {error : FileError}
    (he : op.result m = .error error) : op.run m = m := by
  rw [run_eq, he, settle]

/-- An operation on a tree leaves a tree unless it breaks it. -/
theorem Housed.run_iff (h : m.Housed) (op : Operation) :
    (op.run m).Housed ↔ ¬ op.Breaks m := by
  cases hr : op.result m with
  | error error =>
      rw [Operation.run_of_error hr]
      exact iff_of_true h (Operation.not_breaks_of_error hr)
  | ok m' =>
      rw [Operation.run_of_ok hr, Operation.breaks_iff hr]
      cases op with
      | addFile path content =>
          obtain rfl := Except.ok.inj hr
          simpa [Operation.makesDirs, Operation.putsFile, Operation.path] using
            h.addFile_iff path content
      | addDir path =>
          obtain rfl := Except.ok.inj hr
          simpa [Operation.makesDirs, Operation.putsFile, Operation.path] using h.addDir_iff path
      | remove path =>
          obtain rfl := Except.ok.inj hr
          simpa [Operation.makesDirs, Operation.putsFile] using h.remove path
      | write path content =>
          simpa [Operation.makesDirs, Operation.putsFile, Operation.path] using h.write_iff hr
      | createDir recursive path =>
          obtain rfl := createDir_eq_ok hr
          simpa [Operation.makesDirs, Operation.putsFile, Operation.path] using h.addDir_iff path
      | removeFile path =>
          obtain ⟨content, time, hf, rfl⟩ := removeFile_eq_ok hr
          simpa [Operation.makesDirs, Operation.putsFile] using h.without (h.not_occupied hf)
      | removeDir path =>
          obtain ⟨hfree, rfl⟩ := removeDir_eq_ok hr
          simpa [Operation.makesDirs, Operation.putsFile] using h.without hfree
      | copy source path =>
          obtain ⟨content, -, hw⟩ := bind_eq_ok_iff.mp hr
          simpa [Operation.makesDirs, Operation.putsFile, Operation.path] using h.write_iff hw

/-! ## Runs -/

/-- The state after operations on a new file system. -/
def ran (cwd : Path) (ops : List Operation) : Memory := ops.foldl Operation.run (empty cwd)

theorem ran_concat (cwd : Path) (ops : List Operation) (op : Operation) :
    ran cwd (ops ++ [op]) = op.run (ran cwd ops) := by
  rw [ran, ran, List.foldl_concat]

/-- As long as no operation breaks the tree, a run stays one. -/
theorem housed_ran {cwd : Path} {ops : List Operation}
    (h : ∀ done op, done ++ [op] <+: ops → ¬ op.Breaks (ran cwd done)) :
    (ran cwd ops).Housed := by
  induction ops using List.reverseRecOn with
  | nil => exact housed_empty cwd
  | append_singleton ops op ih =>
      have hbefore := ih fun done next hp => h done next (hp.trans (List.prefix_append _ _))
      rw [ran_concat, hbefore.run_iff]
      exact h ops op List.prefix_rfl

/-- The states of a run are trees exactly when none of its operations makes its place below a file
or puts a file over a directory that holds something. One that fails changes nothing. -/
theorem stays_housed_iff (cwd : Path) (ops : List Operation) :
    ((∀ done, done <+: ops → (ran cwd done).Housed) ↔
      ∀ done op, done ++ [op] <+: ops → ¬ op.Breaks (ran cwd done)) ∧
    ∀ (m : Memory) (op : Operation) (error : FileError) (m' : Memory),
      outcome op.effect m = (.error error, m') → m' = m := by
  refine ⟨⟨fun h done op hp => ?_, fun h done hp => ?_⟩, fun m op error m' ho => ?_⟩
  · have hbefore := h done ((List.prefix_append _ _).trans hp)
    rw [← hbefore.run_iff, ← ran_concat]
    exact h _ hp
  · exact housed_ran fun before op hb => h before op (hb.trans hp)
  · rw [Operation.outcome_effect] at ho
    obtain ⟨he, rfl⟩ := Prod.mk.inj ho
    cases hr : op.result m with
    | ok _ =>
        rw [hr] at he
        cases he
    | error e => exact Operation.run_of_error hr

/-! ## A directory below a file -/

/-- A file, and a directory that is made right below it. -/
def misplaced : List Operation := [.addFile "/a" "x".toUTF8, .createDir false "/a/b"]

/-- To make a single directory it is enough that something stands above it, be it a file. -/
theorem misplaced_not_housed : ¬ ∀ (cwd : Path) (ops : List Operation),
    (∀ op ∈ ops, ∀ path, op = .remove path → path.resolved ≠ []) → (ran cwd ops).Housed := by
  intro h
  refine absurd (h "/" misplaced ?_) (by decide +kernel)
  rintro op hop path rfl
  simp [misplaced] at hop

end VendorBundle.Memory
