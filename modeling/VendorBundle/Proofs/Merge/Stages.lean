import Mathlib.Algebra.BigOperators.Group.List.Basic
import VendorBundle.Proofs.Merge.Twice

/-!
# What each step of a build does

A build takes a step for each change that it carries over and one for each target that is left. What
a step has done shows in the file system: what stood before and no longer does was removed, a listed
directory that stands only now was created, and a file has been written when the clock has ticked.
What the step tells is not quite that. A removal counts although nothing was there, a directory
counts although it stood already, and directories that are made on the way of another step do not
count.
-/

namespace VendorBundle

open Entry Memory Effect

/-! ## Sums of summaries -/

attribute [ext] MergeSummary

namespace MergeSummary

instance : Zero MergeSummary := ⟨{}⟩

@[simp] theorem written_zero : (0 : MergeSummary).written = 0 := rfl
@[simp] theorem removed_zero : (0 : MergeSummary).removed = 0 := rfl
@[simp] theorem regenerated_zero : (0 : MergeSummary).regenerated = 0 := rfl
@[simp] theorem directoriesCreated_zero : (0 : MergeSummary).directoriesCreated = 0 := rfl

variable (a b : MergeSummary)

@[simp] theorem written_add : (a + b).written = a.written + b.written := rfl
@[simp] theorem removed_add : (a + b).removed = a.removed + b.removed := rfl
@[simp] theorem regenerated_add : (a + b).regenerated = a.regenerated + b.regenerated := rfl
@[simp] theorem directoriesCreated_add :
    (a + b).directoriesCreated = a.directoriesCreated + b.directoriesCreated := rfl

instance : AddCommMonoid MergeSummary where
  add_assoc a b c := by ext <;> simp [Nat.add_assoc]
  zero_add a := by ext <;> simp
  add_zero a := by ext <;> simp
  add_comm a b := by ext <;> simp [Nat.add_comm]
  nsmul := nsmulRec

end MergeSummary

/-! ## Steps -/

/-- A step of a build: a change that is carried over, or a target that is made anew. -/
inductive Task where
  | change (op : PatchOp)
  | renewal (target : String)

namespace Task

def path : Task → String
  | change op => op.path
  | renewal target => target

/-- What a task is to do to its path. -/
inductive Aim where
  | remove
  | makeDir
  | write
  deriving DecidableEq

end Task

/-- A step that was taken: what it told, and the states before and after it. -/
structure Stage where
  task : Task
  told : MergeSummary
  before : Memory
  after : Memory

/-- Stages that follow one another from a first state to a last one. -/
inductive Trail (step : Task → Merger.MergeEffect Memory MergeSummary) :
    Memory → List Stage → Memory → Prop
  | done (m : Memory) : Trail step m [] m
  | step {stage : Stage} {stages : List Stage} {m' : Memory}
      (ho : outcome (step stage.task) stage.before = (.ok stage.told, stage.after))
      (h : Trail step stage.after stages m') : Trail step stage.before (stage :: stages) m'

namespace Merger

variable (g : Merger)

/-- The changes that a build is to carry over. -/
def changes (m : Memory) : Patch := Patch.between g.built.entries (g.options.merged m)

/-- The targets that a build is to make anew after its changes. -/
def renewals (m : Memory) : List String :=
  g.remaining (g.affected (Patch.between g.generated.entries (g.options.generatedListing m)))
    (g.changes m)

def tasks (m : Memory) : List Task :=
  (g.changes m).map .change ++ (g.renewals m).map .renewal

def perform (overlay : Overlay) : Task → MergeEffect Memory MergeSummary
  | .change op => g.apply overlay op
  | .renewal target => g.regenerate target

end Merger

namespace MergeOptions

variable (o : MergeOptions)

/-- The build output has no file for a target. -/
def lacks (m : Memory) (target : String) : Bool := !Files.isFile m (o.builtDir.join ⟨target⟩)

/-- What a task is to do: a target that the build output lacks is removed. -/
def aim (m : Memory) : Task → Task.Aim
  | .change (.unlink _) | .change (.rmdir _) => .remove
  | .change (.mkdir _) => .makeDir
  | .change (.create path _) | .change (.change path _) =>
      if o.targets.contains path && o.lacks m path then .remove else .write
  | .renewal target => if o.lacks m target then .remove else .write

variable {o} in
/-- Only a change makes a directory. -/
theorem aim_eq_makeDir_iff {m : Memory} {task : Task} :
    o.aim m task = .makeDir ↔ ∃ path, task = .change (.mkdir path) := by
  constructor
  · intro h
    cases task with
    | renewal target =>
        rw [aim] at h
        split at h <;> cases h
    | change op =>
        cases op with
        | mkdir path => exact ⟨path, rfl⟩
        | unlink path | rmdir path => cases h
        | create path e | change path e =>
            rw [aim] at h
            split at h <;> cases h
  · rintro ⟨path, rfl⟩
    rfl

/-- The fragments that are added to the file of a path. -/
def fragmentsAt (m : Memory) (path : String) : List String :=
  match o.targets.get? path with
  | some source =>
      (m.fragments? (o.generatedDir.join ⟨source.subdir⟩).resolved source.extension).getD []
  | none => []

end MergeOptions

/-! ## What stages do -/

/-- How many places hold something in one state and nothing in another. -/
def Memory.gone (m m' : Memory) : Nat := m.nodes.keys.countP fun place => (m'.node? place).isNone

namespace Stage

variable (o : MergeOptions) (stage : Stage)

/-- The file of the path has been written: it has the last tick of the clock as its time. -/
def wrote : Bool :=
  match stage.after.node? (o.spot stage.task.path) with
  | some (.file _ time) =>
      time == stage.before.clock && stage.after.clock == stage.before.clock + 1
  | _ => false

/-- A listed directory stands that did not before. -/
def opened (e : Entry) : Bool :=
  e.kind = .directory && (stage.before.node? (o.spot e.path)).isNone &&
    stage.after.node? (o.spot e.path) = some .dir

/-- What a stage has done to the file system. -/
def effect (listed : List Entry) : MergeSummary where
  written := if stage.wrote o && (o.fragmentsAt stage.before stage.task.path).isEmpty then 1 else 0
  removed := stage.before.gone stage.after
  regenerated :=
    if stage.wrote o && !(o.fragmentsAt stage.before stage.task.path).isEmpty then 1 else 0
  directoriesCreated := listed.countP (stage.opened o)

/-- There was nothing to remove. -/
def missed : Nat :=
  if o.aim stage.before stage.task = .remove ∧ stage.after = stage.before then 1 else 0

/-- The directory that was to be made, or something else in its place, stood already. -/
def stood : Nat :=
  if o.aim stage.before stage.task = .makeDir ∧
    (stage.before.node? (o.spot stage.task.path)).isSome then 1 else 0

/-- How many listed directories were made on the way. -/
def aside (listed : List Entry) : Nat :=
  listed.countP fun e => stage.opened o e && e.path ≠ stage.task.path

/-- What a stage tells, as compared with what it has done. -/
structure Accounted (listed : List Entry) : Prop where
  written : stage.told.written = (stage.effect o listed).written
  regenerated : stage.told.regenerated = (stage.effect o listed).regenerated
  removed : stage.told.removed = (stage.effect o listed).removed + stage.missed o
  directories : stage.told.directoriesCreated + stage.aside o listed =
    (stage.effect o listed).directoriesCreated + stage.stood o

/-- What a step with an aim has done and tells. -/
inductive Done : Task.Aim → Prop where
  | idle (ht : stage.told = .dropped) (h : stage.after = stage.before) : Done .remove
  | removed (ht : stage.told = .dropped)
      (hs : (stage.before.node? (o.spot stage.task.path)).isSome)
      (h : stage.after = stage.before.without (o.spot stage.task.path)) : Done .remove
  | made (ht : stage.told = .created)
      (h : stage.after = stage.before.addDir (o.outputDir.join ⟨stage.task.path⟩)) : Done .makeDir
  | wrote {parent : Path} {content : ByteArray}
      (ht : stage.told =
        if o.fragmentsAt stage.before stage.task.path = [] then .copied else .merged)
      (h : stage.after = (stage.before.addDir parent).put (o.spot stage.task.path) content) :
      Done .write

end Stage

/-! ## Accounting for a stage -/

namespace Memory

variable {m m' : Memory}

theorem gone_of_stands (h : ∀ place, (m.node? place).isSome → (m'.node? place).isSome) :
    m.gone m' = 0 := by
  rw [gone, List.countP_eq_zero]
  intro place hp hnone
  obtain ⟨node, hn⟩ := Table.mem_keys.mp hp
  have hs : (m'.node? place).isSome := h place (by rw [node?, hn]; rfl)
  simp [Option.isNone_iff_eq_none.mp hnone] at hs

theorem gone_without {place : Place} (h : (m.node? place).isSome) :
    m.gone (m.without place) = 1 := by
  have hmem : place ∈ m.nodes.keys := Table.mem_keys.mpr (Option.isSome_iff_exists.mp h)
  rw [gone, ← List.count_eq_one_of_mem m.nodes.keys_nodup hmem, List.count]
  refine List.countP_congr fun p hp => ?_
  obtain ⟨node, hn⟩ := Table.mem_keys.mp hp
  rw [node?_without]
  by_cases he : place = p
  · simp [he]
  · simp [he, Ne.symm he, node?, hn]

theorem isSome_addDir {path : Path} {place : Place} (h : (m.node? place).isSome) :
    ((m.addDir path).node? place).isSome := by
  rw [node?_addDir]
  split
  · rfl
  · exact h

theorem isSome_put {content : ByteArray} {p place : Place} (h : (m.node? place).isSome) :
    ((m.put p content).node? place).isSome := by
  rw [node?_put]
  split
  · rfl
  · exact h

end Memory

namespace Stage

variable {o : MergeOptions} {stage : Stage} {listed : List Entry}

theorem wrote_of_clock (h : stage.after.clock = stage.before.clock) : stage.wrote o = false := by
  have hne : stage.before.clock ≠ stage.before.clock + 1 := by simp
  rw [wrote, h]
  split
  · simp [hne]
  · rfl

theorem opened_of_stands (e : Entry) (h : stage.after.node? (o.spot e.path) = some .dir →
    (stage.before.node? (o.spot e.path)).isSome) : stage.opened o e = false := by
  by_contra hne
  simp only [opened, Bool.not_eq_false, Bool.and_eq_true, decide_eq_true_eq] at hne
  have hs := h hne.2
  simp [Option.isNone_iff_eq_none.mp hne.1.2] at hs

/-- A step that leaves the file system as it was has no effect. -/
theorem effect_of_idle (listed : List Entry) (h : stage.after = stage.before) :
    stage.effect o listed = 0 := by
  have hwrote : stage.wrote o = false := wrote_of_clock (by rw [h])
  have hopened : listed.countP (stage.opened o) = 0 := List.countP_eq_zero.mpr fun e _ => by
    rw [opened_of_stands e fun hd => by rw [← h, hd]; rfl]
    exact Bool.false_ne_true
  have hgone : stage.before.gone stage.after = 0 := gone_of_stands fun place hs => by rwa [h]
  ext <;> simp [effect, hwrote, hopened, hgone]

/-- The listed directories that a stage creates are that of its path and those on the way. -/
theorem opened_split (o : MergeOptions) (stage : Stage) (listed : List Entry) :
    listed.countP (stage.opened o) = stage.aside o listed +
      listed.countP fun e => stage.opened o e && e.path = stage.task.path := by
  rw [aside]
  induction listed with
  | nil => rfl
  | cons e listed ih =>
      simp only [List.countP_cons, ih]
      cases stage.opened o e <;> by_cases hp : e.path = stage.task.path <;> simp [hp] <;> omega

/-- The directory of the path is created when nothing stood there before. -/
theorem opened_own (ha : Ascending listed) {e : Entry} (he : e ∈ listed)
    (hk : e.kind = .directory) (hp : e.path = stage.task.path)
    (h : stage.after = stage.before.addDir (o.outputDir.join ⟨stage.task.path⟩)) :
    (listed.countP fun e => stage.opened o e && e.path = stage.task.path) =
      if (stage.before.node? (o.spot stage.task.path)).isSome then 0 else 1 := by
  have hafter : stage.after.node? (o.spot e.path) =
      some ((stage.before.node? (o.spot e.path)).getD .dir) := by
    rw [h, node?_addDir, hp]
    exact if_pos (List.prefix_refl (o.spot stage.task.path))
  have hopened : stage.opened o e = !(stage.before.node? (o.spot e.path)).isSome := by
    rw [opened, hafter, hk]
    cases stage.before.node? (o.spot e.path) <;> simp
  rw [← hp]
  split
  · rename_i hs
    refine List.countP_eq_zero.mpr fun x hx => ?_
    simp only [Bool.and_eq_true, decide_eq_true_eq, not_and]
    intro ho hpath
    obtain rfl := ha.eq_of_path hx he hpath
    simp [hopened, hs] at ho
  · rename_i hs
    rw [← List.count_eq_one_of_mem ha.nodup he, List.count]
    refine List.countP_congr fun x hx => ?_
    simp only [Bool.and_eq_true, decide_eq_true_eq, beq_iff_eq]
    constructor
    · exact fun hx' => ha.eq_of_path hx he hx'.2
    · rintro rfl
      exact ⟨by simpa [hopened] using hs, rfl⟩

section

variable (haim : o.aim stage.before stage.task = .remove) (ht : stage.told = .dropped)

include haim ht

/-- A removal counts although nothing was there. -/
theorem accounted_of_idle (h : stage.after = stage.before) : stage.Accounted o listed := by
  have haside : stage.aside o listed = 0 := by
    have hopened := opened_split o stage listed
    have hnone : listed.countP (stage.opened o) = 0 :=
      congrArg MergeSummary.directoriesCreated (effect_of_idle listed h)
    omega
  constructor <;>
    simp [ht, effect_of_idle listed h, missed, stood, haim, h, haside, MergeSummary.dropped]

theorem accounted_of_removed (hs : (stage.before.node? (o.spot stage.task.path)).isSome)
    (h : stage.after = stage.before.without (o.spot stage.task.path)) :
    stage.Accounted o listed := by
  have hwrote : stage.wrote o = false := wrote_of_clock (by rw [h]; rfl)
  have hopened : ∀ e, stage.opened o e = false := fun e =>
    opened_of_stands e fun hd => by
      rw [h, node?_without] at hd
      split at hd
      · cases hd
      · rw [hd]; rfl
  have hnone : listed.countP (stage.opened o) = 0 :=
    List.countP_eq_zero.mpr fun e _ => by simp [hopened]
  have hne : stage.after ≠ stage.before := fun he => by
    rw [← he, h, node?_without, if_pos rfl] at hs
    cases hs
  have hgone : stage.before.gone stage.after = 1 := by rw [h, gone_without hs]
  constructor <;>
    simp [ht, effect, missed, stood, aside, haim, hne, hwrote, hopened, hnone, hgone,
      MergeSummary.dropped]

end

/-- A directory counts although it stood already. -/
theorem accounted_of_made (haim : o.aim stage.before stage.task = .makeDir)
    (ht : stage.told = .created) (ha : Ascending listed)
    (hl : ∃ e ∈ listed, e.kind = .directory ∧ e.path = stage.task.path)
    (h : stage.after = stage.before.addDir (o.outputDir.join ⟨stage.task.path⟩)) :
    stage.Accounted o listed := by
  obtain ⟨e, he, hk, hp⟩ := hl
  have hwrote : stage.wrote o = false := wrote_of_clock (by rw [h]; rfl)
  have hgone : stage.before.gone stage.after = 0 :=
    gone_of_stands fun place hs => by rw [h]; exact isSome_addDir hs
  have hown := opened_own ha he hk hp h
  have hsplit := opened_split o stage listed
  refine ⟨?_, ?_, ?_, ?_⟩
  · simp [ht, effect, hwrote, MergeSummary.created]
  · simp [ht, effect, hwrote, MergeSummary.created]
  · simp [ht, effect, hgone, missed, haim, MergeSummary.created]
  · rw [hown] at hsplit
    rw [ht, effect, hsplit, stood, haim]
    simp only [MergeSummary.created, true_and]
    split <;> omega

/-- A file that is written makes no directory of its own path. -/
theorem accounted_of_wrote (haim : o.aim stage.before stage.task = .write) {parent : Path}
    {content : ByteArray}
    (ht : stage.told =
      if o.fragmentsAt stage.before stage.task.path = [] then .copied else .merged)
    (h : stage.after = (stage.before.addDir parent).put (o.spot stage.task.path) content) :
    stage.Accounted o listed := by
  have hfile : stage.after.node? (o.spot stage.task.path) =
      some (.file content stage.before.clock) := by
    rw [h, node?_put, if_pos rfl]
    rfl
  have hclock : stage.after.clock = stage.before.clock + 1 := by rw [h]; rfl
  have hwrote : stage.wrote o = true := by simp [Stage.wrote, hfile, hclock]
  have hgone : stage.before.gone stage.after = 0 :=
    gone_of_stands fun place hs => by rw [h]; exact isSome_put (isSome_addDir hs)
  have hown : (listed.countP fun e => stage.opened o e && e.path = stage.task.path) = 0 :=
    List.countP_eq_zero.mpr fun e _ => by
      simp only [opened, Bool.and_eq_true, decide_eq_true_eq, not_and, and_imp]
      intro _ _ hd hp
      rw [hp, hfile] at hd
      cases hd
  have hsplit := opened_split o stage listed
  refine ⟨?_, ?_, ?_, ?_⟩
  · rw [ht, effect, hwrote]
    split <;> simp_all [MergeSummary.copied, MergeSummary.merged]
  · rw [ht, effect, hwrote]
    split <;> simp_all [MergeSummary.copied, MergeSummary.merged]
  · rw [ht]
    split <;> simp [effect, hgone, missed, haim, MergeSummary.copied, MergeSummary.merged]
  · rw [ht, effect, hsplit, hown]
    split <;> simp [stood, haim, MergeSummary.copied, MergeSummary.merged]

/-- What a step tells is what it has done, but for removals of nothing, directories that stood and
directories on the way. -/
theorem Done.accounted (h : Done o stage (o.aim stage.before stage.task)) (ha : Ascending listed)
    (hl : o.aim stage.before stage.task = .makeDir →
      ∃ e ∈ listed, e.kind = .directory ∧ e.path = stage.task.path) :
    stage.Accounted o listed := by
  generalize haim : o.aim stage.before stage.task = aim at h hl
  cases h with
  | idle ht h => exact accounted_of_idle haim ht h
  | removed ht hs h => exact accounted_of_removed haim ht hs h
  | made ht h => exact accounted_of_made haim ht ha (hl rfl) h
  | wrote ht h => exact accounted_of_wrote haim ht h

end Stage

/-! ## The stages of a build -/

namespace MergeOptions

variable {o : MergeOptions} {m : Memory} {target : String}

theorem lacks_iff :
    o.lacks m target = true ↔ m.bytes? (o.builtDir.join ⟨target⟩).resolved = none := by
  rw [lacks, Bool.not_eq_true', ← Bool.not_eq_true, Memory.isFile_iff,
    Option.eq_none_iff_forall_ne_some]
  simp only [ne_eq, Memory.bytes?_eq_some_iff, not_exists]

end MergeOptions

namespace Merger

open MergeOptions

variable {o : MergeOptions} {g : Merger} {m m' : Memory} {told : MergeSummary}

theorem remove_ok {path : Path} {isDir : Bool} {u : Unit}
    (ho : outcome (remove path isDir) m = (.ok u, m')) :
    m' = m ∨ (m.node? path.resolved).isSome ∧ m' = m.without path.resolved := by
  have hdone : ∀ {m₁}, (if isDir then m.removeDir path else m.removeFile path) = .ok m₁ →
      (m.node? path.resolved).isSome ∧ m₁ = m.without path.resolved := by
    intro m₁ h
    cases hn : m.node? path.resolved with
    | none =>
        have hnot : m.node? path.resolved ≠ some .dir := by simp [hn]
        cases isDir <;> simp [removeDir_of_not_dir hnot, removeFile_of_none hn] at h
    | some node =>
        refine ⟨rfl, ?_⟩
        cases node with
        | file content time =>
            have hnot : m.node? path.resolved ≠ some .dir := by simp [hn]
            cases isDir <;> simp_all [removeDir_of_not_dir hnot, removeFile_of_file hn]
        | dir =>
            cases isDir with
            | false => simp [removeFile_of_dir hn] at h
            | true =>
                simp only [if_true, removeDir_of_dir hn] at h
                split at h
                · exact (Except.ok.inj h).symm
                · cases h
  rw [outcome_remove] at ho
  split at ho
  · rename_i m₁ h
    exact .inr ((Prod.mk.inj ho).2 ▸ hdone h)
  · exact .inl (Prod.mk.inj ho).2.symm

theorem done_of_remove {task : Task} {isDir : Bool}
    (ho : outcome (do remove (o.outputDir.join ⟨task.path⟩) isDir; return MergeSummary.dropped) m =
      (.ok told, m')) : Stage.Done o ⟨task, told, m, m'⟩ .remove := by
  obtain ⟨u, m₁, hremove, hpure⟩ := outcome_bind_eq_ok_iff.mp ho
  obtain ⟨ht, rfl⟩ := Prod.mk.inj hpure
  rcases remove_ok hremove with h | ⟨hs, h⟩
  · exact .idle (Except.ok.inj ht).symm h
  · exact .removed (Except.ok.inj ht).symm hs h

theorem put_of_writeFile {path : String} (hc : Canonical path) {content : ByteArray} {u : Unit}
    (ho : outcome (writeFile (o.outputDir.join ⟨path⟩) content) m = (.ok u, m')) :
    ∃ parent, m' = (m.addDir parent).put (o.spot path) content := by
  obtain ⟨parent, -, hw⟩ := outcome_writeFile hc o.outputDir content m
  rw [hw] at ho
  split at ho
  · exact ⟨parent, (Prod.mk.inj ho).2.symm.trans (by rw [spot_of_canonical hc])⟩
  · cases (Prod.mk.inj ho).1

theorem done_of_writeFile {task : Task} (hc : Canonical task.path) {content : ByteArray}
    {s : MergeSummary}
    (hs : s = if o.fragmentsAt m task.path = [] then .copied else .merged)
    (ho : outcome (do writeFile (o.outputDir.join ⟨task.path⟩) content; return s) m =
      (.ok told, m')) : Stage.Done o ⟨task, told, m, m'⟩ .write := by
  obtain ⟨u, m₁, hwrite, hpure⟩ := outcome_bind_eq_ok_iff.mp ho
  obtain ⟨ht, rfl⟩ := Prod.mk.inj hpure
  obtain ⟨parent, h⟩ := put_of_writeFile hc hwrite
  exact .wrote ((Except.ok.inj ht).symm.trans hs) h

theorem done_of_copyFile {task : Task} (hc : Canonical task.path) {source : Path}
    (hnone : o.targets.get? task.path = none)
    (ho : outcome (do
      copyFile source (o.outputDir.join ⟨task.path⟩)
      return MergeSummary.copied) m = (.ok told, m')) :
    Stage.Done o ⟨task, told, m, m'⟩ .write := by
  cases hb : m.bytes? source.resolved with
  | none =>
      obtain ⟨e, he⟩ : ∃ e, outcome (copyFile source (o.outputDir.join ⟨task.path⟩)) m =
          (.error e, m) := outcome_copyFile_of_none hb
      rw [outcome_bind_of_error he] at ho
      cases (Prod.mk.inj ho).1
  | some content =>
      rw [outcome_bind_congr (outcome_copyFile_of_some hb)] at ho
      exact done_of_writeFile hc (by rw [fragmentsAt, hnone]; rfl) ho

/-- Making a target anew removes it or writes it. -/
theorem done_of_regenerate (hg : g.Made) (hm : m.Named) {task : Task} (hc : Canonical task.path)
    (ht : g.options.targets.contains task.path = true)
    (ho : outcome (g.regenerate task.path) m = (.ok told, m')) :
    Stage.Done g.options ⟨task, told, m, m'⟩
      (if g.options.lacks m task.path then .remove else .write) := by
  obtain ⟨source, hs⟩ := Option.isSome_iff_exists.mp ht
  have hbuilt := Path.resolved_join g.options.builtDir hc
  cases hb : m.bytes? (g.options.builtDir.join ⟨task.path⟩).resolved with
  | none =>
      rw [if_pos (lacks_iff.mpr hb)]
      rw [g.outcome_regenerate_of_not_file hc (hbuilt ▸ hb)] at ho
      exact done_of_remove ho
  | some content =>
      rw [if_neg fun hl => by simp [lacks_iff.mp hl] at hb]
      rcases g.outcome_regenerate_texts hm (hg.targets ▸ hs) hb with
        ⟨texts, bytes, hf, -, hw⟩ | ⟨-, e, he⟩
      · rw [hw] at ho
        exact done_of_writeFile hc (by simp only [fragmentsAt, hs, hf, Option.getD_some]) ho
      · rw [he] at ho
        cases (Prod.mk.inj ho).1

theorem done_of_put (hg : g.Made) (hm : m.Named) {task : Task} (hc : Canonical task.path)
    (overlay : Overlay)
    (ho : outcome (if g.targets.contains task.path then g.regenerate task.path
      else do
        match overlay.sources.get? task.path with
        | some source =>
            copyFile (g.options.generatedDir.join ⟨source⟩) (g.options.outputDir.join ⟨task.path⟩)
        | none =>
            copyFile (g.options.builtDir.join ⟨task.path⟩) (g.options.outputDir.join ⟨task.path⟩)
        pure MergeSummary.copied : MergeEffect Memory MergeSummary) m = (.ok told, m')) :
    Stage.Done g.options ⟨task, told, m, m'⟩
      (if g.options.targets.contains task.path && g.options.lacks m task.path then .remove
        else .write) := by
  rw [hg.targets] at ho
  by_cases ht : g.options.targets.contains task.path = true
  · rw [if_pos ht] at ho
    rw [ht, Bool.true_and]
    exact done_of_regenerate hg hm hc ht ho
  · have hnone : g.options.targets.get? task.path = none := by simpa [Table.contains] using ht
    rw [if_neg ht] at ho
    rw [if_neg (by simp [ht])]
    split at ho
    · exact done_of_copyFile hc hnone ho
    · exact done_of_copyFile hc hnone ho

/-- What a step has done that succeeds. -/
theorem done_of_perform (hg : g.Made) (hm : m.Named) {overlay : Overlay} {task : Task}
    (hc : Canonical task.path)
    (ht : ∀ target, task = .renewal target → g.options.targets.contains target = true)
    (ho : outcome (g.perform overlay task) m = (.ok told, m')) :
    Stage.Done g.options ⟨task, told, m, m'⟩ (g.options.aim m task) := by
  cases task with
  | renewal target => exact done_of_regenerate hg hm hc (ht target rfl) ho
  | change op =>
      cases op with
      | unlink path => exact done_of_remove ho
      | rmdir path => exact done_of_remove ho
      | create path e => exact done_of_put hg hm hc overlay ho
      | change path e => exact done_of_put hg hm hc overlay ho
      | mkdir path =>
          have hmake : outcome (tried .createDir (g.options.outputDir.join ⟨path⟩)
              (Files.createDir true (g.options.outputDir.join ⟨path⟩))) m =
              (.ok (), m.addDir (g.options.outputDir.join ⟨path⟩)) := by
            rw [outcome_tried, Memory.outcome_createDir]
            rfl
          obtain ⟨u, m₁, hmade, hpure⟩ := outcome_bind_eq_ok_iff.mp ho
          obtain ⟨htold, rfl⟩ := Prod.mk.inj hpure
          exact .made (Except.ok.inj htold).symm (Prod.mk.inj (hmade.symm.trans hmake)).2

end Merger

/-! ## Trails -/

namespace Trail

variable {step : Task → Merger.MergeEffect Memory MergeSummary} {m m' m'' : Memory}
  {stages stages' : List Stage}

theorem append (h : Trail step m stages m') (h' : Trail step m' stages' m'') :
    Trail step m (stages ++ stages') m'' := by
  induction h with
  | done m => exact h'
  | step ho _ ih => exact .step ho (ih h')

/-- A trail is gone through part by part. -/
theorem of_append (h : Trail step m (stages ++ stages') m'') :
    ∃ m', Trail step m stages m' ∧ Trail step m' stages' m'' := by
  induction stages generalizing m with
  | nil => exact ⟨m, .done m, h⟩
  | cons stage stages ih =>
      cases h with
      | step ho h =>
          obtain ⟨m', hfirst, hrest⟩ := ih h
          exact ⟨m', .step ho hfirst, hrest⟩

/-- A sequence of steps that succeeds leaves a trail, and tells what its stages tell. -/
theorem of_summed {tasks : List Task} {s : MergeSummary}
    (ho : outcome (Merger.summed step tasks) m = (.ok s, m')) :
    ∃ stages, stages.map Stage.task = tasks ∧ Trail step m stages m' ∧
      s = (stages.map Stage.told).sum := by
  have hfold : ∀ {s₀ : MergeSummary} {m : Memory},
      outcome (tasks.foldlM (fun s task => do pure (s + (← step task))) s₀) m = (.ok s, m') →
      ∃ stages, stages.map Stage.task = tasks ∧ Trail step m stages m' ∧
        s = s₀ + (stages.map Stage.told).sum := by
    clear ho
    induction tasks with
    | nil =>
        intro s₀ m ho
        obtain ⟨hs, rfl⟩ := Prod.mk.inj ho
        exact ⟨[], rfl, .done m, by rw [← Except.ok.inj hs]; exact (add_zero s₀).symm⟩
    | cons task tasks ih =>
        intro s₀ m ho
        rw [List.foldlM_cons] at ho
        obtain ⟨s₁, m₁, hfirst, hrest⟩ := outcome_bind_eq_ok_iff.mp ho
        obtain ⟨told, m₂, hstep, hpure⟩ := outcome_bind_eq_ok_iff.mp hfirst
        obtain ⟨hs, rfl⟩ := Prod.mk.inj hpure
        obtain rfl := Except.ok.inj hs
        obtain ⟨stages, htasks, htrail, hsum⟩ := ih hrest
        refine ⟨⟨task, told, m, m₂⟩ :: stages, by rw [List.map_cons, htasks], ?_, ?_⟩
        · exact @Trail.step _ ⟨task, told, m, m₂⟩ _ _ hstep htrail
        · rw [hsum, List.map_cons, List.sum_cons, add_assoc]
  obtain ⟨stages, htasks, htrail, hsum⟩ := hfold ho
  exact ⟨stages, htasks, htrail, hsum.trans (zero_add _)⟩

/-- The steps of a trail succeed one after the other. -/
theorem summed (h : Trail step m stages m') :
    ∃ s, outcome (Merger.summed step (stages.map Stage.task)) m = (.ok s, m') := by
  have hfold : ∀ s₀ : MergeSummary, ∃ s, outcome ((stages.map Stage.task).foldlM
      (fun s task => do pure (s + (← step task))) s₀) m = (.ok s, m') := by
    induction h with
    | done m => exact fun s₀ => ⟨s₀, rfl⟩
    | @step stage stages m' ho _ ih =>
        intro s₀
        obtain ⟨s, hrest⟩ := ih (s₀ + stage.told)
        refine ⟨s, ?_⟩
        rw [List.map_cons, List.foldlM_cons, outcome_bind, outcome_bind_of_ok ho]
        exact hrest
  exact hfold {}

/-- Each stage is a step that succeeds, in a state that the steps before it lead to. -/
theorem outcome_of_append {stage : Stage} (h : Trail step m (stages ++ stage :: stages') m') :
    Trail step m stages stage.before ∧
      outcome (step stage.task) stage.before = (.ok stage.told, stage.after) := by
  obtain ⟨m₁, hfirst, hrest⟩ := of_append h
  cases hrest with
  | step ho _ => exact ⟨hfirst, ho⟩

end Trail

/-! ## Stages as acts -/

namespace Trail

variable {α : Type} {step : Task → Merger.MergeEffect Memory MergeSummary} {f : α → Task}
  {act : α → Option Act} {items : List α} {root : Place} {m₀ m m' : Memory} {stages : List Stage}

/-- A trail carries out the acts of its tasks one after the other. -/
theorem runs (h : Trail step m stages m') (ht : stages.map Stage.task = items.map f)
    (hk : ∀ a ∈ items, Keeps (Within root) (step (f a)))
    (he : ∀ a ∈ items, ∀ m₁, Within root m₀ m₁ → Merger.Enacts root (act a) (step (f a)) m₁)
    (hw : Within root m₀ m) :
    Runs (m.view root) (items.filterMap act) (m'.view root) ∧ Within root m₀ m' := by
  obtain ⟨s, hsum⟩ := h.summed
  rw [ht, Merger.summed, List.foldlM_map] at hsum
  obtain ⟨acts, hacts, hruns, hwithin⟩ :=
    Merger.summed_runs hk he hw hsum
  obtain ⟨-, rfl⟩ := mapM_eq_some_iff.mp hacts
  exact ⟨hruns, hwithin⟩

/-- Each of its stages carries out the act of its task, after the acts of the tasks before it. -/
theorem enacted (h : Trail step m stages m') (ht : stages.map Stage.task = items.map f)
    (hk : ∀ a ∈ items, Keeps (Within root) (step (f a)))
    (he : ∀ a ∈ items, ∀ m₁, Within root m₀ m₁ → Merger.Enacts root (act a) (step (f a)) m₁)
    (hw : Within root m₀ m) {stage : Stage} (hmem : stage ∈ stages) :
    ∃ front item back a, items = front ++ item :: back ∧ stage.task = f item ∧
      act item = some a ∧ Runs (m.view root) (front.filterMap act) (stage.before.view root) ∧
      a.Possible (stage.before.view root) ∧
      stage.after.view root = a.result (stage.before.view root) ∧
      Within root m₀ stage.before := by
  obtain ⟨stages₁, stages₂, rfl⟩ := List.append_of_mem hmem
  obtain ⟨hfirst, ho⟩ := h.outcome_of_append
  rw [List.map_append, List.map_cons] at ht
  obtain ⟨front, rest, rfl, hfront, hrest⟩ := List.append_eq_map_iff.mp ht
  obtain ⟨item, back, rfl, hitem, -⟩ := List.map_eq_cons_iff.mp hrest
  have hmem_front : ∀ a ∈ front, a ∈ front ++ item :: back := fun a => List.mem_append_left _
  obtain ⟨hruns, hwithin⟩ := hfirst.runs hfront.symm (fun a ha => hk a (hmem_front a ha))
    (fun a ha => he a (hmem_front a ha)) hw
  have henacts := he item (by simp) _ hwithin
  rw [hitem] at henacts
  cases hact : act item with
  | none =>
      rw [hact] at henacts
      obtain ⟨e, m₁, herror, -⟩ := henacts
      rw [ho] at herror
      cases herror
  | some a =>
      rw [hact] at henacts
      exact ⟨front, item, back, a, rfl, hitem.symm, hact, hruns,
        henacts.possible _ _ ho, henacts.result _ _ ho, hwithin⟩

end Trail

end VendorBundle
