import VendorBundle.Proofs.Index.Session

/-!
# Updating an index again and again

As long as all updates of a session succeed, the list of all imports is at any point the one from
scratch of the tree that was taken over last. An update that fails has taken some files over but not
the listing, and the next one that succeeds only repairs those files that its patch names.
-/

namespace VendorBundle

open Entry Memory Effect Relation

namespace IndexScope

variable {c : IndexScope} {contents : ByteArray → Prop} {s s' : Session}

/-! ## Lists with the same stamp -/

/-- A result that was handed out and the index that did so, or the same index later. -/
structure Told (a : Shared (List Import)) (index : ImportIndex) : Prop where
  le : a.stamp ≤ index.collections
  value : index.Collected → index.collections = a.stamp → index.list = a.value

namespace Told

variable {a : Shared (List Import)}

theorem asked (h : s.index.Collected ∨ s.index.collected.stale = true) :
    Told s.index.imports.1 s.asked.index := by
  rcases h with h | h
  · rw [Session.asked, h.imports]
    exact ⟨Nat.le_refl _, fun _ _ => rfl⟩
  · rw [Session.asked, ImportIndex.imports_of_stale h]
    exact ⟨Nat.le_refl _, fun _ _ => rfl⟩

/-- A list that is handed out again with the same stamp is the same list. -/
theorem value_eq (h : Told a s.index) (hs : s.index.Collected ∨ s.index.collected.stale = true)
    (he : s.index.imports.1.stamp = a.stamp) : s.index.imports.1.value = a.value := by
  rcases hs with hs | hs
  · rw [hs.imports] at he ⊢
    exact h.value hs he
  · rw [ImportIndex.imports_of_stale hs] at he
    have hle := h.le
    simp only at he
    omega

theorem of_retains {index old : ImportIndex} (h : Told a old) (hr : Retains old index)
    (hc : old.collected.stale = true ∨ old.Collected) : Told a index where
  le := hr.1 ▸ h.le
  value hcollected he := by
    rcases hr.2 with ⟨hsame, hlist⟩ | ⟨hstale, -⟩
    · rcases hc with hc | hc
      · rw [← hsame, hcollected] at hc
        exact absurd hc nofun
      · rw [hlist]
        exact h.value hc (hr.1 ▸ he)
    · rw [hcollected] at hstale
      exact absurd hstale nofun

theorem step (hh : c.Hashes contents) (hs : Held c contents s) (h : Told a s.index)
    (hstep : Step c contents False s s') : Told a s'.index := by
  cases hstep with
  | edit op hc => exact h
  | update hl hf ho => exact h.of_retains (hs.update hh hf hl ho).2.2 hs.handed.symm
  | fail hf => exact hf.elim
  | ask =>
      rcases hs.handed with hc | hc
      · rw [Session.asked, hc.imports]
        exact h
      · rw [Session.asked, ImportIndex.imports_of_stale hc]
        refine ⟨Nat.le_succ_of_le h.le, fun _ he => ?_⟩
        have hle := h.le
        simp only at he
        omega

theorem steps (hh : c.Hashes contents) (hs : Held c contents s) (h : Told a s.index)
    (hsteps : ReflTransGen (Step c contents False) s s') : Told a s'.index := by
  induction hsteps with
  | refl => exact h
  | tail hsteps hstep ih => exact ih.step hh (hs.steps hh hsteps).1 hstep

end Told

/-- A step at which no file of the tree gets other imports. -/
def Quiet (c : IndexScope) (contents : ByteArray → Prop) (s s' : Session) : Prop :=
  Step c contents False s s' ∧ ∀ path, c.fileImports s'.taken path = c.fileImports s.taken path

/-- Where no file gets other imports, the same result is handed out. -/
theorem imports_eq_of_quiet (hh : c.Hashes contents) (hs : Held c contents s) (he : c.Exact s)
    (hc : s.index.Collected) (hsteps : ReflTransGen (Quiet c contents) s s') :
    s'.index.Collected ∧ s'.index.imports.1 = s.index.imports.1 := by
  induction hsteps with
  | refl => exact ⟨hc, rfl⟩
  | @tail t t' hsteps hquiet ih =>
      obtain ⟨hcollected, himports⟩ := ih
      obtain ⟨hstep, hsame⟩ := hquiet
      have hrun : ReflTransGen (Step c contents False) s t := hsteps.lift id fun _ _ h => h.1
      obtain ⟨hheld, hexact⟩ := hs.steps hh hrun
      have hexact := hexact id he
      cases hstep with
      | edit op hc => exact ⟨hcollected, himports⟩
      | @update entries index hl hf ho =>
          obtain ⟨-, -, hcollections, hr⟩ := hheld.update hh hf hl ho
          rcases hr with ⟨hkept, hlist⟩ | ⟨-, path, hne⟩
          · have hcollected' : index.Collected := by
              rw [ImportIndex.Collected, hkept, hcollected, hcollections, hlist]
            refine ⟨hcollected', himports ▸ ?_⟩
            rw [hcollected'.imports, hcollected.imports, hcollections, hlist]
          · have hnew := hheld.exact_update hh hf hexact hl ho path
            exact absurd (hnew.trans ((hsame path).trans (hexact path).symm)) hne
      | fail hf => exact hf.elim
      | ask =>
          rw [Session.asked, hcollected.imports]
          exact ⟨hcollected, himports⟩

/-! ## What is handed out -/

/-- As long as all updates succeed, the list is at any point the one from scratch of the tree that
was taken over last, in the order of the paths and each record with its file, the package and the
kind of the tree. The same result is handed out again while no file gets other imports, and a result
with the stamp of an earlier one is the same list. -/
theorem Run.imports_eq_scratch (hmode : c.options.tokenMode = .stat)
    (h : Run c (fun _ => True) False s) :
    s.index.imports.1.value = c.scratch s.taken ∧
    (c.programs s.taken).Pairwise (fun a b => compare a b = .lt) ∧
    (∀ i ∈ s.index.imports.1.value, ∃ path ∈ c.programs s.taken,
      i.site = ⟨c.tree.label ++ path, c.package, c.tree.kind⟩) ∧
    (∀ s', ReflTransGen (Quiet c fun _ => True) s.asked s' →
      s'.index.imports.1 = s.index.imports.1) ∧
    ∀ s', ReflTransGen (Step c (fun _ => True) False) s.asked s' →
      s'.index.imports.1.same s.index.imports.1 = true →
        s'.index.imports.1.value = s.index.imports.1.value := by
  have hh : c.Hashes fun _ => True := fun hcontent => absurd (hmode.symm.trans hcontent) nofun
  obtain ⟨hheld, hexact⟩ := h.held hh
  have hexact := hexact id
  have hvalue := hheld.value_eq_scratch_iff.mpr hexact
  have hasked := collected_imports hheld.handed
  obtain ⟨hheld', hexact'⟩ := hheld.step hh (Step.ask : Step c (fun _ => True) False s s.asked)
  refine ⟨hvalue, ascending_programs hheld.between.namedOld, fun i hi => ?_, fun s' hs => ?_,
    fun s' hs hsame => ?_⟩
  · rw [hvalue] at hi
    exact site_of_mem_scratch hi
  · have hagain : s.asked.index.imports.1 = s.index.imports.1 := by
      rcases hheld.handed with hc | hc
      · rw [Session.asked, hc.imports, hc.imports]
      · rw [Session.asked, hasked.imports, ImportIndex.imports_of_stale hc]
        rfl
    rw [← hagain]
    exact (imports_eq_of_quiet hh hheld' (hexact' id hexact) hasked hs).2
  · exact ((Told.asked hheld.handed).steps hh hheld' hs).value_eq (hheld'.steps hh hs).1.handed
      (by simpa [Shared.same] using hsame)

/-! ## Two updates of one tree -/

namespace OneTree

def scope : IndexScope where
  package := { name := "app", root := ⟨"/app"⟩ }
  tree := { root := ⟨"/app/src"⟩, label := "src/", kind := some "app" }

/-- What a walk through the tree finds. -/
def found (m : Memory) : List Entry := m.walked scope.tree.root scope.options

/-- How it ends to follow the tree. -/
def following (m : Memory) (index : ImportIndex) : Except AnalysisError Unit × ImportIndex :=
  outcome (ImportIndex.follow m (Patch.between index.snapshot.entries (found m))) index

/-- The index after it has followed the tree. -/
def followed (m : Memory) (index : ImportIndex) : ImportIndex :=
  { (following m index).2 with snapshot := ⟨found m⟩ }

theorem listTree_eq_found {m : Memory} (hm : m.Named) (ha : Ascending (found m)) :
    listTree m scope.tree.root scope.options = .ok (found m) := by
  rw [listTree_eq_listing hm, listing_eq_walked hm ha, found]

theorem update_of_followed {m : Memory} {index : ImportIndex} (ha : Ascending (found m))
    (h : (following m index).1.toBool = true) :
    outcome (ImportIndex.update m (found m)) index = (.ok (), followed m index) := by
  rw [ImportIndex.outcome_update ha, followed]
  rw [following] at h ⊢
  generalize outcome (ImportIndex.follow m _) index = x at h ⊢
  obtain ⟨_ | _, index'⟩ := x
  · exact absurd h nofun
  · rfl

theorem fails_of_following {m : Memory} {index : ImportIndex} (ha : Ascending (found m))
    (h : (following m index).1.toBool = false) : ∃ e,
    outcome (ImportIndex.update m (found m)) index = (.error e, (following m index).2) := by
  rw [ImportIndex.outcome_update ha]
  rw [following] at h ⊢
  generalize outcome (ImportIndex.follow m _) index = x at h ⊢
  obtain ⟨e | _, index'⟩ := x
  · exact ⟨e, rfl⟩
  · exact absurd h nofun

theorem fits (m : Memory) : scope.Fits (fun _ => True) m := fun _ _ _ _ => trivial

/-- One program. -/
def started : Memory := (Memory.empty ⟨"/"⟩).addFile ⟨"/app/src/a.js"⟩ "import 'x';".toUTF8

theorem reachable_started : started.Reachable :=
  (Reachable.empty ⟨"/"⟩).step (.addFile ⟨"/app/src/a.js"⟩ "import 'x';".toUTF8) (by decide +kernel)

/-- The import of a program. -/
def written (file specifier : String) : Import :=
  .literal ⟨specifier, false, ⟨file, scope.package, some "app"⟩⟩

/-- The session after the first update. -/
def first : Session := ⟨followed started scope.create, started, started⟩

def edit : Operation := .addFile ⟨"/app/src/a.js"⟩ "import 'y';".toUTF8

def edited : Memory := edit.run started

/-- The session after the import was changed and the index updated again. -/
def second : Session := ⟨followed edited first.asked.index, edited, edited⟩

theorem run_second : Run scope (fun _ => True) False second := by
  have hfirst : Step scope (fun _ => True) False (scope.start started) first :=
    .update (listTree_eq_found (m := started) (by decide +kernel) (by decide +kernel)) (fits _)
      (update_of_followed (by decide +kernel) (by decide +kernel))
  have hsecond : Step scope (fun _ => True) False { first.asked with memory := edited } second :=
    .update (listTree_eq_found (m := edited) (by decide +kernel) (by decide +kernel)) (fits _)
      (update_of_followed (by decide +kernel) (by decide +kernel))
  exact ⟨started, reachable_started,
    (((ReflTransGen.single hfirst).tail .ask).tail (.edit edit (by decide +kernel))).tail hsecond⟩

theorem second_imports_eq_scratch :
    second.index.imports.1.value = [written "src/a.js" "y"] ∧
    second.index.imports.1.value = scope.scratch edited ∧
    (scope.programs edited).Pairwise (fun a b => compare a b = .lt) ∧
    (∀ i ∈ second.index.imports.1.value, ∃ path ∈ scope.programs edited,
      i.site = ⟨"src/" ++ path, scope.package, some "app"⟩) ∧
    (∀ s, ReflTransGen (Quiet scope fun _ => True) second.asked s →
      s.index.imports.1 = second.index.imports.1) ∧
    ∀ s, ReflTransGen (Step scope (fun _ => True) False) second.asked s →
      s.index.imports.1.same second.index.imports.1 = true →
        s.index.imports.1.value = second.index.imports.1.value :=
  ⟨by decide +kernel, run_second.imports_eq_scratch rfl⟩

example : scope.scratch ((Memory.empty ⟨"/"⟩).addFile ⟨"/app/src/a.js"⟩ "import 'y';".toUTF8) =
    [written "src/a.js" "y"] := by decide +kernel

end OneTree

/-- When updates failed before, one that succeeds leads to the list of a new index exactly if every
file that its patch does not name is known as it was taken over last. A new index can be updated,
and has the list from scratch. -/
theorem Run.imports_eq_fresh_iff (hh : c.Hashes contents) (h : Run c contents True s)
    (hf : c.Fits contents s.memory) {entries : List Entry} {index : ImportIndex}
    (hl : listTree s.memory c.tree.root c.options = .ok entries)
    (ho : outcome (ImportIndex.update s.memory entries) s.index = (.ok (), index)) :
    ∃ fresh, outcome (ImportIndex.update s.memory entries) c.create = (.ok (), fresh) ∧
      fresh.imports.1.value = c.scratch s.memory ∧
      (index.imports.1.value = fresh.imports.1.value ↔ ∀ path, path ∉ c.touched s.taken s.memory →
        s.index.known path = c.fileImports s.taken path) := by
  obtain ⟨hheld, -⟩ := h.held hh
  obtain ⟨hnew, hknown, -⟩ := hheld.update hh hf hl ho
  obtain ⟨fresh, hfresh⟩ := hheld.fresh_succeeds hnew hl
  have hstart : Held c contents (c.start s.memory) := .start hheld.reachable
  have hfreshHeld := (hstart.update hh hf hl hfresh).1
  have hvalue : fresh.imports.1.value = c.scratch s.memory :=
    hfreshHeld.value_eq_scratch_iff.mpr
      (hstart.exact_update hh hf (exact_start c s.memory) hl hfresh)
  refine ⟨fresh, hfresh, hvalue, ?_⟩
  rw [hvalue]
  refine hnew.value_eq_scratch_iff.trans (forall_congr' fun path => ?_)
  rw [hknown path]
  by_cases ht : path ∈ c.touched s.taken s.memory
  · simp [ht]
  · simp [ht, hheld.between.fileImports_eq hh hf ht]

namespace OneTree

/-! ## A file that is removed after a failed update -/

/-- A program, and one that is no text. -/
def broken : Memory := started.addFile ⟨"/app/src/b.js"⟩ ⟨#[0xff]⟩

/-- The index after the update that failed: it has read the first program. -/
def halted : ImportIndex := (following broken scope.create).2

/-- The first program is removed and the other one made a text. -/
def mended : Memory :=
  (broken.remove ⟨"/app/src/a.js"⟩).addFile ⟨"/app/src/b.js"⟩ "".toUTF8

theorem run_mended :
    Run scope (fun _ => True) True ⟨halted, mended, nothing⟩ := by
  have hm : broken.Reachable :=
    reachable_started.step (.addFile ⟨"/app/src/b.js"⟩ ⟨#[0xff]⟩) (by decide +kernel)
  have hfails : ∃ e, outcome (ImportIndex.update broken (found broken)) scope.create =
      (.error e, halted) := fails_of_following (by decide +kernel) (by decide +kernel)
  obtain ⟨e, ho⟩ := hfails
  have hfail : Step scope (fun _ => True) True (scope.start broken) ⟨halted, broken, nothing⟩ :=
    .fail trivial (listTree_eq_found (m := broken) (by decide +kernel) (by decide +kernel)) ho
  exact ⟨broken, hm, ((ReflTransGen.single hfail).tail
    (.edit (.remove ⟨"/app/src/a.js"⟩) (by decide +kernel))).tail
    (.edit (.addFile ⟨"/app/src/b.js"⟩ "".toUTF8) (by decide +kernel))⟩

theorem listTree_mended : listTree mended scope.tree.root scope.options = .ok (found mended) :=
  listTree_eq_found (by decide +kernel) (by decide +kernel)

theorem update_mended : outcome (ImportIndex.update mended (found mended)) halted =
    (.ok (), followed mended halted) :=
  update_of_followed (by decide +kernel) (by decide +kernel)

theorem mended_imports_eq_fresh_iff : ∃ fresh,
    outcome (ImportIndex.update mended (found mended)) scope.create = (.ok (), fresh) ∧
    fresh.imports.1.value = scope.scratch mended ∧
    ((followed mended halted).imports.1.value = fresh.imports.1.value ↔
      ∀ path, path ∉ scope.touched nothing mended →
        halted.known path = scope.fileImports nothing path) :=
  run_mended.imports_eq_fresh_iff nofun (fits _) listTree_mended update_mended

/-- What was read of a file before an update failed stays when the file is removed before the next
update, which succeeds. -/
theorem mended_imports_ne_fresh :
    Run scope (fun _ => True) True ⟨halted, mended, nothing⟩ ∧
    listTree mended scope.tree.root scope.options = .ok (found mended) ∧
    outcome (ImportIndex.update mended (found mended)) halted = (.ok (), followed mended halted) ∧
    (followed mended halted).imports.1.value = [written "src/a.js" "x"] ∧
    outcome (ImportIndex.update mended (found mended)) scope.create =
      (.ok (), followed mended scope.create) ∧
    (followed mended scope.create).imports.1.value = [] :=
  ⟨run_mended, listTree_mended, update_mended, by decide +kernel,
    update_of_followed (by decide +kernel) (by decide +kernel), by decide +kernel⟩

end OneTree

end IndexScope

end VendorBundle
