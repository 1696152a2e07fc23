import VendorBundle.Proofs.Merge.Frame
import VendorBundle.Proofs.Merge.Overlay
import VendorBundle.Proofs.Tree.Diff

/-!
# A build as a sequence of acts

The changes of a patch and the targets that are left after it each stand for one act on the
result. A build that succeeds carries out all of these acts, one after the other.
-/

namespace VendorBundle

open Effect Memory

/-- A change that puts a file. -/
def PatchOp.puts : PatchOp → Bool
  | create _ _ | change _ _ => true
  | unlink _ | rmdir _ | mkdir _ => false

@[simp] theorem PatchOp.puts_removal (e : Entry) : (removal e).puts = false := by
  rw [removal]
  cases e.kind <;> rfl

namespace MergeOptions

/-- What the theory asks of the options: the result is apart from the input trees, and targets,
mapped directories and places of generated directories are written with plain names that listings
do not pass over. -/
structure Regular (o : MergeOptions) : Prop where
  apartBuilt : Apart o.outputDir.resolved o.builtDir.resolved
  apartGenerated : Apart o.outputDir.resolved o.generatedDir.resolved
  targets : ∀ target source, o.targets.get? target = some source →
    Canonical target ∧ ∀ n ∈ Text.split '/' target, n ∉ o.listOptions.ignore
  subdirs : ∀ target source, o.targets.get? target = some source →
    Canonical source.subdir ∧ ∀ n ∈ Text.split '/' source.subdir, n ∉ o.listOptions.ignore
  places : ∀ e ∈ o.passthrough.entries, Overlay.IsPlace (trimSlashes e.2)

theorem Regular.canonical {o : MergeOptions} (hr : o.Regular) {target : String}
    (ht : o.targets.contains target = true) : Canonical target := by
  obtain ⟨source, hs⟩ := Option.isSome_iff_exists.mp ht
  exact (hr.targets target source hs).1

variable (o : MergeOptions)

/-- The act that a change stands for, if the content it needs is there. -/
def act? (m : Memory) (overlay : Overlay) : PatchOp → Option Act
  | .unlink path => some (.drop (Text.split '/' path))
  | .rmdir path => some (.clear (Text.split '/' path))
  | .mkdir path => some (.make (Text.split '/' path))
  | .create path _ | .change path _ =>
      (o.content? m overlay path).map (.write (Text.split '/' path))

/-- The act that making a target anew stands for. -/
def renewal? (m : Memory) (overlay : Overlay) (target : String) : Option Act :=
  match m.bytes? (o.builtDir.resolved ++ Text.split '/' target) with
  | some _ => (o.content? m overlay target).map (.write (Text.split '/' target))
  | none => some (.drop (Text.split '/' target))

theorem inputs_of_within {o : MergeOptions} (hr : o.Regular) {m m' : Memory}
    (h : Within o.outputDir.resolved m m') :
    ∀ place, o.IsInput place → m'.node? place = m.node? place := by
  rintro place (hp | hp)
  · exact h.node?_of_apart hr.apartBuilt hp
  · exact h.node?_of_apart hr.apartGenerated hp

end MergeOptions

namespace Merger

/-- The tables of a merger are those of its options. -/
structure Made (g : Merger) : Prop where
  targets : g.targets = g.options.targets
  feeds : g.feeds = .ofTargets g.options.targets

/-- An effect does what an act does, or fails where there is none. -/
def Enacts {α : Type} (root : Place) (act : Option Act) (e : MergeEffect Memory α) (m : Memory) :
    Prop :=
  match act with
  | some a => Performs root a e m
  | none => ∃ error m', outcome e m = (.error error, m') ∧ m'.view root = m.view root

theorem Performs.congr {α : Type} {root : Place} {a : Act} {e e' : MergeEffect Memory α}
    {m : Memory} (h : Performs root a e m) (he : outcome e' m = outcome e m) :
    Performs root a e' m :=
  ⟨fun r m' hr => h.possible r m' (he ▸ hr), fun r m' hr => h.result r m' (he ▸ hr),
    fun hp => he ▸ h.succeeds hp, fun error m' hr => h.fails error m' (he ▸ hr)⟩

variable {g : Merger} {m₀ m : Memory} {overlay : Overlay}

theorem enacts_regenerate (hg : g.Made) (hr : g.options.Regular) (hm : m₀.Named)
    (hw : Within g.options.outputDir.resolved m₀ m) {target : String}
    (ht : g.options.targets.contains target = true) :
    Enacts g.options.outputDir.resolved (g.options.renewal? m₀ overlay target)
      (g.regenerate target) m := by
  obtain ⟨source, hs⟩ := Option.isSome_iff_exists.mp ht
  have hinputs := g.options.inputs_of_within hr hw
  have hbytes := Memory.bytes?_congr
    (hinputs (g.options.builtDir.resolved ++ Text.split '/' target) (.inl (List.prefix_append _ _)))
  have hcontent := g.options.content?_congr hinputs overlay target
  have hc := hr.canonical ht
  rw [MergeOptions.renewal?, ← hbytes, ← hcontent]
  cases hb : m.bytes? (g.options.builtDir.resolved ++ Text.split '/' target) with
  | none =>
      exact ((performs_drop (Path.resolved_join _ hc) m).pure _).congr
        (g.outcome_regenerate_of_not_file hc hb)
  | some content =>
      have hmerged : g.options.content? m overlay target =
          g.options.mergedBytes? m target source := by rw [MergeOptions.content?, hs]
      rw [hmerged]
      rcases g.outcome_regenerate_of_file (hw.named hm) (hg.targets ▸ hs) hc
        (hr.subdirs target source hs).1 hb with ⟨bytes, s, hbs, ho⟩ | ⟨hbs, e, ho⟩
      · rw [hbs]
        exact ((performs_write hc _ bytes m).pure s).congr ho
      · rw [hbs]
        exact ⟨e, m, ho, rfl⟩

theorem enacts_copy {source : Path} {dir : Path} {path : String} (hp : Canonical path)
    {place : Place} (hs : source.resolved = place) (s : MergeSummary) :
    Enacts dir.resolved ((m.bytes? place).map (.write (Text.split '/' path)))
      (do copyFile source (dir.join ⟨path⟩); return s) m := by
  subst hs
  cases hb : m.bytes? source.resolved with
  | none =>
      obtain ⟨e, ho⟩ := outcome_copyFile_of_none hb
      exact ⟨e, m, outcome_bind_of_error ho _, rfl⟩
  | some content =>
      exact ((performs_write hp dir content m).congr (outcome_copyFile_of_some hb)).pure s

/-- Putting a file writes its content. A target must be a file of the build output. -/
theorem enacts_putFile (hg : g.Made) (hr : g.options.Regular) (hm : m₀.Named)
    (hw : Within g.options.outputDir.resolved m₀ m) {path : String} (hp : Canonical path)
    (hs : ∀ path source, overlay.sources.get? path = some source → Canonical source)
    (hf : g.options.targets.contains path = true → ∃ content,
      m₀.bytes? (g.options.builtDir.resolved ++ Text.split '/' path) = some content) :
    Enacts g.options.outputDir.resolved
      ((g.options.content? m₀ overlay path).map (.write (Text.split '/' path)))
      (g.putFile overlay path) m := by
  rw [putFile, hg.targets]
  by_cases ht : g.options.targets.contains path = true
  · rw [if_pos ht]
    obtain ⟨content, hb⟩ := hf ht
    have h : Enacts g.options.outputDir.resolved (g.options.renewal? m₀ overlay path)
        (g.regenerate path) m := enacts_regenerate hg hr hm hw ht
    rwa [MergeOptions.renewal?, hb] at h
  · rw [if_neg ht, ← g.options.content?_congr (g.options.inputs_of_within hr hw),
      MergeOptions.content?]
    have hnone : g.options.targets.get? path = none := by
      simpa [Table.contains] using ht
    simp only [hnone]
    cases hsource : overlay.sources.get? path with
    | some source => exact enacts_copy hp (Path.resolved_join _ (hs _ _ hsource)) .copied
    | none => exact enacts_copy hp (Path.resolved_join _ hp) .copied

/-- A change does what its act does. -/
theorem enacts_apply (hg : g.Made) (hr : g.options.Regular) (hm : m₀.Named)
    (hw : Within g.options.outputDir.resolved m₀ m) {op : PatchOp} (hop : Canonical op.path)
    (hs : ∀ path source, overlay.sources.get? path = some source → Canonical source)
    (hf : op.puts = true → g.options.targets.contains op.path = true → ∃ content,
      m₀.bytes? (g.options.builtDir.resolved ++ Text.split '/' op.path) = some content) :
    Enacts g.options.outputDir.resolved (g.options.act? m₀ overlay op) (g.apply overlay op) m := by
  have hout := Path.resolved_join g.options.outputDir hop
  cases op with
  | unlink path => exact (performs_drop hout m).pure MergeSummary.dropped
  | rmdir path => exact (performs_clear hout m).pure MergeSummary.dropped
  | mkdir path => exact (performs_make hout .createDir m).pure MergeSummary.created
  | change path entry | create path entry => exact enacts_putFile hg hr hm hw hop hs (hf rfl)

/-! ## Sequences of steps -/

/-- A sequence of steps that succeeds carries out the acts of all of them. -/
theorem summed_runs {α : Type} {root : Place} {step : α → MergeEffect Memory MergeSummary}
    {act : α → Option Act} {items : List α} (hk : ∀ a ∈ items, Keeps (Within root) (step a))
    (ha : ∀ a ∈ items, ∀ m, Within root m₀ m → Enacts root (act a) (step a) m)
    (hw : Within root m₀ m) {s : MergeSummary} {m' : Memory}
    (ho : outcome (summed step items) m = (.ok s, m')) :
    ∃ acts, items.mapM act = some acts ∧ Runs (m.view root) acts (m'.view root) ∧
      Within root m₀ m' := by
  rw [summed] at ho
  generalize ({} : MergeSummary) = s₀ at ho
  induction items generalizing m s₀ with
  | nil =>
      obtain rfl := (Prod.mk.inj ho).2
      exact ⟨[], rfl, .done _, hw⟩
  | cons a items ih =>
      rw [List.foldlM_cons] at ho
      obtain ⟨s₁, m₁, hfirst, hrest⟩ := outcome_bind_eq_ok_iff.mp ho
      obtain ⟨r, m₂, hstep, hpure⟩ := outcome_bind_eq_ok_iff.mp hfirst
      obtain rfl := (Prod.mk.inj hpure).2
      have hw₁ : Within root m₀ m₂ := hw.trans ((hk a List.mem_cons_self).related hstep)
      obtain ⟨acts, hacts, hruns, hw'⟩ := ih (fun b hb => hk b (List.mem_cons_of_mem _ hb))
        (fun b hb => ha b (List.mem_cons_of_mem _ hb)) hw₁ s₁ hrest
      have henacts := ha a List.mem_cons_self m hw
      cases hact : act a with
      | none =>
          rw [hact] at henacts
          obtain ⟨e, m₃, he, -⟩ := henacts
          simp [hstep] at he
      | some x =>
          rw [hact] at henacts
          refine ⟨x :: acts, by simp [hact, hacts], ?_, hw'⟩
          refine .step (henacts.possible r m₂ hstep) ?_
          rwa [← henacts.result r m₂ hstep]

/-- A sequence of steps succeeds when their acts can be carried out one after the other. -/
theorem summed_succeeds {α : Type} {root : Place} {step : α → MergeEffect Memory MergeSummary}
    {act : α → Option Act} {items : List α} (hk : ∀ a ∈ items, Keeps (Within root) (step a))
    (ha : ∀ a ∈ items, ∀ m, Within root m₀ m → Enacts root (act a) (step a) m)
    (hw : Within root m₀ m) {acts : List Act} (hacts : items.mapM act = some acts) {v : View}
    (hruns : Runs (m.view root) acts v) :
    ∃ s m', outcome (summed step items) m = (.ok s, m') ∧ m'.view root = v ∧
      Within root m₀ m' := by
  rw [summed]
  generalize ({} : MergeSummary) = s₀
  induction items generalizing m s₀ acts with
  | nil =>
      obtain rfl : [] = acts := by simpa using hacts
      cases hruns
      exact ⟨s₀, m, rfl, rfl, hw⟩
  | cons a items ih =>
      rw [List.mapM_cons] at hacts
      obtain ⟨x, hx, hitems⟩ := Option.bind_eq_some_iff.mp hacts
      obtain ⟨rest, hrest, hpure⟩ := Option.bind_eq_some_iff.mp hitems
      obtain rfl := Option.some.inj hpure
      obtain ⟨hpossible, hruns⟩ : x.Possible (m.view root) ∧
          Runs (x.result (m.view root)) rest v := by
        cases hruns with
        | step hp hruns => exact ⟨hp, hruns⟩
      have henacts := ha a List.mem_cons_self m hw
      rw [hx] at henacts
      obtain ⟨r, m₁, hstep⟩ := henacts.succeeds hpossible
      have hw₁ : Within root m₀ m₁ := hw.trans ((hk a List.mem_cons_self).related hstep)
      rw [← henacts.result r m₁ hstep] at hruns
      obtain ⟨s, m', ho, hv⟩ := ih (fun b hb => hk b (List.mem_cons_of_mem _ hb))
        (fun b hb => ha b (List.mem_cons_of_mem _ hb)) hw₁ hrest hruns (s₀ + r)
      refine ⟨s, m', ?_, hv⟩
      have hfirst : outcome (do pure (s₀ + (← step a)) : MergeEffect Memory MergeSummary) m =
          (.ok (s₀ + r), m₁) := outcome_bind_of_ok hstep _
      rw [List.foldlM_cons, outcome_bind_of_ok hfirst, ho]

end Merger

end VendorBundle
