import VendorBundle.Proofs.Index.Session
import VendorBundle.Proofs.Pipeline.Incremental

/-!
# Files that end every build

A file that is no text, or has a call of `import` that no import can be made of, ends every build.
An index takes a listing over only when all of its patch was followed. So whatever builds failed
before, every program of a listing that was taken over could be read, and one that a later patch
does not name stands there as it was read then.
-/

namespace VendorBundle

open Effect Memory Relation
open List (Forall₂)

/-! ## Faults that end a build -/

namespace Script

/-- The fault for which a file with such a content ends a build: the content is no text, or has a
call of `import` that no import can be made of. -/
inductive Fatal (path : String) (content : ByteArray) : SourceFault → Prop where
  | notText {fault} (h : Text.Utf8.decode content = .error fault) :
      Fatal path content (.notText path fault.message)
  | call {text} {fault : CallFault} (hd : Text.Utf8.decode content = .ok text)
      (hi : imports path text = .error (fault.inFile path)) : Fatal path content (fault.inFile path)

theorem isRecoverable_inFile (fault : CallFault) (path : String) :
    (fault.inFile path).isRecoverable = false := by
  cases fault <;> rfl

/-- The faults of a text are those of its syntax and those of its calls of `import`. -/
theorem imports_error_cases {path text : String} {fault : SourceFault}
    (h : imports path text = .error fault) :
    fault = .malformed path ∨ ∃ call : CallFault, fault = call.inFile path := by
  -- The equation of `imports` would open the parser.
  delta imports at h
  split at h
  · rename_i outline _
    cases ho : outline.imports with
    | ok forms => simp [ho, Except.mapError] at h
    | error call =>
        rw [ho] at h
        exact .inr ⟨call, (Except.error.inj h).symm⟩
  · exact .inl (Except.error.inj h).symm

end Script

open Script (Fatal)

namespace IndexScope

variable {c : IndexScope} {m : Memory}

/-- A program of the tree stands there with a content. -/
def Reads (c : IndexScope) (m : Memory) (path : String) (content : ByteArray) : Prop :=
  path ∈ c.programs m ∧ ∃ time, m.node? (c.place path) = some (.file content time)

theorem exists_reads (hm : m.Named) {path : String} (hp : path ∈ c.programs m) :
    ∃ content, c.Reads m path content := by
  obtain ⟨content, time, hn, -⟩ := file_of_mem_programs hm hp
  exact ⟨content, hp, time, hn⟩

section

variable {index : ImportIndex} (ht : index.tree = c.tree) (hm : m.Named) {path : String}
  {content : ByteArray} (hr : c.Reads m path content)

include ht hm hr

theorem readText_of_reads : Files.readText m (index.tree.root.join ⟨path⟩) =
    (Text.Utf8.decode content).mapError (.notText (index.tree.root.join ⟨path⟩)) := by
  obtain ⟨hp, time, hn⟩ := hr
  obtain ⟨-, -, -, hc, -⟩ := file_of_mem_programs hm hp
  have hplace : (index.tree.root.join ⟨path⟩).resolved = c.place path := by
    rw [ht, Path.resolved_join _ hc, place]
  rw [Files.readText, read_of_file (hplace.symm ▸ hn)]
  dsimp only
  cases Text.Utf8.decode content <;> rfl

/-- A program with a fault that ends a build cannot be read. -/
theorem readFile_of_fatal {fault : SourceFault} (hf : Fatal (c.tree.label ++ path) content fault) :
    ImportIndex.readFile m index path = .error (.source fault) := by
  rw [ImportIndex.readFile, readText_of_reads ht hm hr, ht]
  cases hf with
  | notText hd => simp [hd, Except.mapError]
  | call hd hi => simp [hd, hi, Except.mapError, Script.isRecoverable_inFile]

/-- A program that cannot be read has a fault that ends a build. -/
theorem fatal_of_readFile {e : AnalysisError}
    (he : ImportIndex.readFile m index path = .error e) :
    ∃ fault, e = .source fault ∧ Fatal (c.tree.label ++ path) content fault := by
  rw [ImportIndex.readFile, readText_of_reads ht hm hr, ht] at he
  cases hd : Text.Utf8.decode content with
  | error fault =>
      rw [hd] at he
      exact ⟨_, (Except.error.inj he).symm, .notText hd⟩
  | ok text =>
      simp only [hd, Except.mapError] at he
      cases hi : Script.imports (c.tree.label ++ path) text with
      | ok forms => simp [hi] at he
      | error fault =>
          obtain rfl | ⟨call, rfl⟩ := Script.imports_error_cases hi
          · simp [hi, SourceFault.isRecoverable] at he
          · simp only [hi, Script.isRecoverable_inFile, Bool.false_eq_true, if_false] at he
            exact ⟨_, (Except.error.inj he).symm, .call hd hi⟩

end

/-! ## Updates of one index -/

/-- Some program of the tree has a fault that ends a build. -/
def Faulty (c : IndexScope) (m : Memory) (fault : SourceFault) : Prop :=
  ∃ path content, c.Reads m path content ∧ Fatal (c.tree.label ++ path) content fault

variable {index : ImportIndex}

/-- An index that has just taken a listing over could read all its programs. -/
theorem Held.not_faulty (h : Held c (fun _ => True) ⟨index, m, m⟩) (fault : SourceFault) :
    ¬ c.Faulty m fault := by
  rintro ⟨path, content, hr, hf⟩
  obtain ⟨imports, hok⟩ := h.readable path hr.1
  have herror : ImportIndex.readFile m index path = .error (.source fault) :=
    readFile_of_fatal h.tree h.reachable.named hr hf
  exact absurd (hok.symm.trans herror) nofun

/-- An update of an index fails for the fault of some program. -/
theorem Held.faulty {taken : Memory} (h : Held c (fun _ => True) ⟨index, m, taken⟩)
    {entries : List Entry} {e : AnalysisError} {index' : ImportIndex}
    (hl : listTree m c.tree.root c.options = .ok entries)
    (ho : outcome (ImportIndex.update m entries) index = (.error e, index')) :
    ∃ fault, e = .source fault ∧ c.Faulty m fault := by
  obtain ⟨path, hp, herror⟩ := h.exists_unreadable hl ho
  obtain ⟨content, hr⟩ := exists_reads h.reachable.named hp
  obtain ⟨fault, he, hf⟩ := fatal_of_readFile h.tree h.reachable.named hr herror
  exact ⟨fault, he, path, content, hr, hf⟩

end IndexScope

namespace Pipeline

/-! ## Builds that may fail -/

/-- What one pipeline and the file system go through: the files are edited anywhere and the plan is
built, with success or without. -/
inductive Step : Memory × Pipeline → Memory × Pipeline → Prop where
  | edit {m p} (op : Operation) (hc : m.clock ≤ (op.run m).clock) : Step (m, p) (op.run m, p)
  | build {m p} : Step (m, p) (m, (outcome (Pipeline.build m) p).2)

/-- What a new pipeline and the file system have come to. -/
def Course (c : Settings) (s : Memory × Pipeline) : Prop :=
  ∃ m, m.Reachable ∧ ReflTransGen Step (m, c.create) s

/-- How one of the trees is listed and read. -/
def Settings.scope (c : Settings) (tree : Package × SourceTree) : IndexScope where
  package := tree.1
  tree := tree.2
  options := c.listOptions

variable {c : Settings} {m m' : Memory} {p : Pipeline} {s s' : Memory × Pipeline}

/-- An index attends to a tree: what it has taken over was so at some point. -/
def Attends (c : Settings) (m : Memory) (tree : Package × SourceTree) (index : ImportIndex) :
    Prop :=
  ∃ taken, (c.scope tree).Held (fun _ => True) ⟨index, m, taken⟩

/-- An index has just taken the listing of a tree over. -/
def Current (c : Settings) (m : Memory) (tree : Package × SourceTree) (index : ImportIndex) :
    Prop :=
  (c.scope tree).Held (fun _ => True) ⟨index, m, m⟩

theorem Current.attends {tree : Package × SourceTree} {index : ImportIndex}
    (h : Current c m tree index) : Attends c m tree index := ⟨m, h⟩

/-- What holds of a pipeline at any point. -/
structure Held (c : Settings) (m : Memory) (p : Pipeline) : Prop where
  reachable : m.Reachable
  listOptions : p.listOptions = c.listOptions
  indexes : Forall₂ (Attends c m) c.trees p.indexes

theorem held_create (c : Settings) (hm : m.Reachable) : Held c m c.create where
  reachable := hm
  listOptions := rfl
  indexes := List.forall₂_map_right_iff.mpr
    (List.forall₂_same.mpr fun tree _ => ⟨nothing, IndexScope.Held.start (c := c.scope tree) hm⟩)

theorem Held.edit (h : Held c m p) (op : Operation) (hc : m.clock ≤ (op.run m).clock) :
    Held c (op.run m) p where
  reachable := h.reachable.step op hc
  listOptions := h.listOptions
  indexes := h.indexes.imp fun _ _ ⟨taken, hheld⟩ => ⟨taken, hheld.edit op hc⟩

section

variable (hmode : c.listOptions.tokenMode = .stat)

include hmode

/-- Indexes are updated up to the first one whose tree has a program with a fault. -/
theorem updateIndexes_cases (hm : m.Named) {trees : List (Package × SourceTree)}
    {indexes : List ImportIndex} (h : Forall₂ (Attends c m) trees indexes) :
    ∃ result updated, updateIndexes m (indexes.map fun index =>
        (index, listTree m index.tree.root c.listOptions)) = (result, updated) ∧
      (result = .ok () ∧ Forall₂ (Current c m) trees updated ∨
        Forall₂ (Attends c m) trees updated ∧ ∃ fault, result = .error (.analysis (.source fault)) ∧
          ∃ tree ∈ trees, (c.scope tree).Faulty m fault) := by
  have hh : ∀ tree, (c.scope tree).Hashes fun _ => True := fun _ hcontent =>
    absurd (hmode.symm.trans hcontent) nofun
  induction h with
  | nil => exact ⟨.ok (), [], rfl, .inl ⟨rfl, .nil⟩⟩
  | @cons tree index trees indexes hindex hrest ih =>
      obtain ⟨taken, hheld⟩ := hindex
      have hroot : index.tree.root = tree.2.root := congrArg SourceTree.root hheld.tree
      have hl := listTree_eq_listing hm tree.2.root c.listOptions
      rw [List.map_cons, hroot, hl]
      rcases ho : outcome (ImportIndex.update m (m.listing tree.2.root c.listOptions)) index
        with ⟨e | _, index'⟩
      · obtain ⟨fault, rfl, hfault⟩ := hheld.faulty hl ho
        refine ⟨_, _, updateIndexes_of_error _ ho, .inr ⟨?_, fault, rfl, tree, ?_, hfault⟩⟩
        · rw [List.map_map]
          simpa using ⟨⟨taken, hheld.fail hl ho⟩, hrest⟩
        · exact List.mem_cons_self
      · have hcurrent : Current c m tree index' :=
          (hheld.update (hh tree) (fun _ _ _ _ => trivial) hl ho).1
        obtain ⟨result, updated, hupdated, hcases⟩ := ih
        obtain ⟨hok, hall⟩ | ⟨hall, fault, hfault, other, hother, hf⟩ := hcases
        · refine ⟨result, index' :: updated, ?_, .inl ⟨hok, .cons hcurrent hall⟩⟩
          rw [updateIndexes_of_ok _ ho, hupdated]
        · refine ⟨result, index' :: updated, ?_, .inr ⟨.cons hcurrent.attends hall, fault, hfault,
            other, List.mem_cons_of_mem _ hother, hf⟩⟩
          rw [updateIndexes_of_ok _ ho, hupdated]

/-- A build fails for a fault of a file exactly when some program of a tree has one. -/
theorem Held.build (h : Held c m p) : Held c m (outcome (Pipeline.build m) p).2 ∧
    ((∀ tree ∈ c.trees, ∀ fault, ¬ (c.scope tree).Faulty m fault) ∧
        (∀ e, (outcome (Pipeline.build m) p).1 ≠ .error (.analysis e)) ∨
      ∃ fault, (outcome (Pipeline.build m) p).1 = .error (.analysis (.source fault)) ∧
        ∃ tree ∈ c.trees, (c.scope tree).Faulty m fault) := by
  obtain ⟨result, updated, hu, ⟨rfl, hall⟩ | ⟨hall, fault, rfl, hfault⟩⟩ :=
    updateIndexes_cases hmode h.reachable.named h.indexes
  · rw [← h.listOptions] at hu
    have hasked : Forall₂ (Attends c m) c.trees (updated.map (·.imports.2)) :=
      List.forall₂_map_right_iff.mpr (hall.imp fun _ _ hcurrent => ⟨m, hcurrent.ask⟩)
    have hcurrent : Forall₂ (flip (Current c m)) updated c.trees := List.Forall₂.flip hall
    have hnone : ∀ tree ∈ c.trees, ∀ fault, ¬ (c.scope tree).Faulty m fault :=
      forall_mem_of_forall₂ hcurrent fun _ _ h => h.not_faulty
    rw [outcome_build_of_updated hu]
    split
    · exact ⟨⟨h.reachable, h.listOptions, hasked⟩, .inl ⟨hnone, nofun⟩⟩
    · exact ⟨⟨h.reachable, h.listOptions, hasked⟩, .inl ⟨hnone, nofun⟩⟩
  · rw [← h.listOptions] at hu
    rw [outcome_build_of_failed hu]
    exact ⟨⟨h.reachable, h.listOptions, hall⟩, .inr ⟨fault, rfl, hfault⟩⟩

theorem Held.step (h : Held c s.1 s.2) (hstep : Step s s') : Held c s'.1 s'.2 := by
  cases hstep with
  | edit op hc => exact h.edit op hc
  | build => exact (h.build hmode).1

theorem Held.steps (h : Held c s.1 s.2) (hsteps : ReflTransGen Step s s') : Held c s'.1 s'.2 := by
  induction hsteps with
  | refl => exact h
  | tail _ hstep ih => exact ih.step hmode hstep

theorem Course.held (h : Course c s) : Held c s.1 s.2 := by
  obtain ⟨m, hm, hsteps⟩ := h
  exact (held_create c hm).steps hmode hsteps

/-- Whatever was edited and whichever builds failed before, a build that succeeds finds no fault in
any program of any tree. One that fails for a fault found it in a program, and as long as this
program is listed with this content every later build fails for such a fault. -/
theorem Course.faults_end_builds (h : Course c (m, p)) :
    (∀ o p', outcome (Pipeline.build m) p = (.ok o, p') →
      ∀ tree ∈ c.trees, ∀ path ∈ (c.scope tree).programs m, ∃ content,
        (c.scope tree).Reads m path content ∧
          ∀ fault, ¬ Fatal (tree.2.label ++ path) content fault) ∧
    ∀ fault p', outcome (Pipeline.build m) p = (.error (.analysis (.source fault)), p') →
      ∃ tree ∈ c.trees, ∃ path content, (c.scope tree).Reads m path content ∧
        Fatal (tree.2.label ++ path) content fault ∧
        ∀ m' q, ReflTransGen Step (m, p') (m', q) → (c.scope tree).Reads m' path content →
          ∃ fault' q',
            outcome (Pipeline.build m') q = (.error (.analysis (.source fault')), q') := by
  have hheld : Held c m p := h.held hmode
  obtain ⟨hbuilt, hcases⟩ := hheld.build hmode
  constructor
  · intro o p' ho tree ht path hp
    obtain ⟨content, hr⟩ := IndexScope.exists_reads hheld.reachable.named hp
    refine ⟨content, hr, fun fault hf => ?_⟩
    obtain ⟨hnone, -⟩ | ⟨fault', he, -⟩ := hcases
    · exact hnone tree ht fault ⟨path, content, hr, hf⟩
    · rw [ho] at he
      exact absurd he nofun
  · intro fault p' ho
    rw [ho] at hbuilt hcases
    obtain ⟨-, hno⟩ | ⟨fault', he, tree, ht, path, content, hr, hf⟩ := hcases
    · exact absurd rfl (hno _)
    · obtain rfl : fault = fault' := by simpa using he
      refine ⟨tree, ht, path, content, hr, hf, fun m' q hsteps hr' => ?_⟩
      obtain ⟨hnone, -⟩ | ⟨later, he', -⟩ := ((hbuilt.steps hmode hsteps).build hmode).2
      · exact absurd ⟨path, content, hr', hf⟩ (hnone tree ht fault)
      · exact ⟨later, _, Prod.ext he' rfl⟩

end

/-! ## A file with a call that is no import -/

namespace OneTree

/-- The tree with a second program, whose import depends on a variable. -/
def broken : Memory := started.addFile ⟨"/app/src/b.js"⟩ "import(y);".toUTF8

theorem reachable_broken : broken.Reachable :=
  reachable_started.step (.addFile ⟨"/app/src/b.js"⟩ "import(y);".toUTF8) (by decide +kernel)

def callFault : SourceFault := .argument "b.js" "identifier 'y'"

/-- How it ends to follow the tree with the fault. -/
def halting : Except AnalysisError Unit × ImportIndex :=
  outcome (ImportIndex.follow broken (Patch.between index.snapshot.entries (found broken))) index

/-- The pipeline after the build that failed: its index has read the first program. -/
def halted : Pipeline := { settings.create with indexes := [halting.2] }

theorem build_broken : outcome (Pipeline.build broken) settings.create =
    (.error (.analysis (.source callFault)), halted) := by
  have ha : Entry.Ascending (found broken) := by decide +kernel
  have hhalting : halting.1 = .error (.source callFault) := by decide +kernel
  have hupdate : outcome (ImportIndex.update broken (found broken)) index =
      (.error (.source callFault), halting.2) := by
    rw [ImportIndex.outcome_update ha]
    rw [halting] at hhalting ⊢
    generalize outcome (ImportIndex.follow broken _) index = x at hhalting ⊢
    obtain ⟨result, index'⟩ := x
    obtain rfl : result = .error (.source callFault) := hhalting
    rfl
  have hlisted : settings.create.listed broken = [(index, .ok (found broken))] := by
    rw [← listTree_eq_found reachable_broken.named ha]
    rfl
  refine outcome_build_of_failed ?_
  rw [hlisted]
  exact updateIndexes_of_error [] hupdate

/-- The second program is removed. -/
def mended : Memory := broken.remove ⟨"/app/src/b.js"⟩

/-- The index after the build that succeeds. -/
def mendedIndex : ImportIndex := (followed mended halting.2).imports.2

theorem build_mended : outcome (Pipeline.build mended) halted =
    (.ok ⟨⟨1, plan false⟩, true⟩, { first with indexes := [mendedIndex] }) := by
  have hlist : (followed mended halting.2).imports =
      (⟨1, [.literal (written false)]⟩, mendedIndex) := Prod.ext (by decide +kernel) rfl
  have hsplit : outcome (Splitter.plan mended [⟨1, [.literal (written false)]⟩]) halted.splitter =
      (.ok ⟨1, plan false⟩, first.splitter) :=
    Splitter.plan_of_new rfl (plan_of_gathered (by decide +kernel))
  exact build_of_followed (by decide +kernel) (by decide +kernel) rfl rfl (by decide +kernel)
    (by decide +kernel) hlist hsplit rfl

/-- A build that fails, then an edit. -/
theorem course_mended : Course settings (mended, halted) := by
  have hbuild : Step (broken, settings.create) (broken, halted) := by
    have h : Step (broken, settings.create) (broken, _) := .build
    rwa [build_broken] at h
  exact ⟨broken, reachable_broken, (ReflTransGen.single hbuild).tail
    (.edit (.remove ⟨"/app/src/b.js"⟩) (by decide +kernel))⟩

theorem broken_until_mended :
    outcome (Pipeline.build broken) settings.create =
      (.error (.analysis (.source callFault)), halted) ∧
    (∃ tree ∈ settings.trees, ∃ path content, (settings.scope tree).Reads broken path content ∧
      Fatal (tree.2.label ++ path) content callFault ∧
      ∀ m' q, ReflTransGen Step (broken, halted) (m', q) →
        (settings.scope tree).Reads m' path content → ∃ fault' q',
          outcome (Pipeline.build m') q = (.error (.analysis (.source fault')), q')) ∧
    outcome (Pipeline.build mended) halted =
      (.ok ⟨⟨1, plan false⟩, true⟩, { first with indexes := [mendedIndex] }) ∧
    ∀ tree ∈ settings.trees, ∀ path ∈ (settings.scope tree).programs mended, ∃ content,
      (settings.scope tree).Reads mended path content ∧
        ∀ fault, ¬ Fatal (tree.2.label ++ path) content fault :=
  have hbroken : Course settings (broken, settings.create) := ⟨broken, reachable_broken, .refl⟩
  ⟨build_broken, (hbroken.faults_end_builds rfl).2 _ _ build_broken,
    build_mended, (course_mended.faults_end_builds rfl).1 _ _ build_mended⟩

end OneTree

end Pipeline

end VendorBundle
