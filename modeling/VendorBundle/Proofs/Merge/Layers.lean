import VendorBundle.Proofs.Merge.Fresh
import VendorBundle.Proofs.Tree.Stepwise

/-!
# Layers of a result

The build output and the generated directories that are passed through are trees that are laid over
each other, and for each path the topmost layer counts. Together they are a tree unless a file of
one layer hides a directory of a layer under it, whose contents stay listed. Only then the changes
of the result cannot be carried out.
-/

namespace VendorBundle

open Entry

/-! ## Trees over each other -/

/-- A file of a layer hides a path: no layer over it lists the path, and a layer under it has
something below the path. -/
def Hides (layers : List (List Entry)) (path : String) : Prop :=
  ∃ lower layer upper, layers = lower ++ layer :: upper ∧
    (∃ e ∈ layer, e.path = path ∧ e.kind = .file) ∧ (∀ l ∈ upper, ∀ e ∈ l, e.path ≠ path) ∧
    ∃ l ∈ lower, ∃ e ∈ l, Below path e.path

/-- The entry of a path comes from the topmost layer that lists the path. -/
theorem exists_topmost {layers : List (List Entry)} {path : String} {e : Entry}
    (h : entryAt? layers.flatten path = some e) :
    ∃ lower layer upper, layers = lower ++ layer :: upper ∧ e ∈ layer ∧
      ∀ l ∈ upper, ∀ x ∈ l, x.path ≠ path := by
  induction layers with
  | nil => cases h
  | cons layer layers ih =>
      rw [List.flatten_cons, entryAt?_append, Option.or_eq_some_iff] at h
      rcases h with h | ⟨hnone, h⟩
      · obtain ⟨lower, l, upper, rfl, hrest⟩ := ih h
        exact ⟨layer :: lower, l, upper, rfl, hrest⟩
      · refine ⟨[], layer, layers, rfl, entryAt?_mem h, fun l hl x hx => ?_⟩
        exact entryAt?_eq_none_iff.mp hnone x (List.mem_flatten.mpr ⟨l, hl, hx⟩)

theorem entryAt?_topmost {lower upper : List (List Entry)} {layer : List Entry} {path : String}
    {e : Entry} (he : entryAt? layer path = some e) (ho : ∀ l ∈ upper, ∀ x ∈ l, x.path ≠ path) :
    entryAt? (lower ++ layer :: upper).flatten path = some e := by
  have hnone : entryAt? upper.flatten path = none := entryAt?_eq_none_iff.mpr fun x hx => by
    obtain ⟨l, hl, hx⟩ := List.mem_flatten.mp hx
    exact ho l hl x hx
  rw [List.flatten_append, List.flatten_cons, entryAt?_append, entryAt?_append, hnone, he]
  rfl

section

variable {layers : List (List Entry)} (h : ∀ l ∈ layers, IsTree l ∧ OneKind l)

include h

/-- In a tree no file hides a directory. -/
theorem not_hides_of_isTree (ht : IsTree (normalize layers.flatten)) (path : String) :
    ¬ Hides layers path := by
  rintro ⟨lower, layer, upper, rfl, ⟨f, hf, hfp, hfk⟩, ho, l, hl, e, he, hb⟩
  obtain ⟨f', hf'⟩ := exists_entryAt?_of_mem hf
  rw [hfp] at hf'
  have hkind := (h layer (by simp)).2.kind_eq hf hfp hf'
  have hat : entryAt? (normalize (lower ++ layer :: upper).flatten) path = some f' := by
    rw [entryAt?_normalize, entryAt?_topmost hf' ho]
  have hmem : e ∈ (lower ++ layer :: upper).flatten :=
    List.mem_flatten.mpr ⟨l, List.mem_append_left _ hl, he⟩
  obtain ⟨x, hx⟩ := exists_entryAt?_of_mem hmem
  rw [← entryAt?_normalize] at hx
  obtain ⟨d, hd, hdp, hdk⟩ :=
    ht.directory_of_below (entryAt?_mem hx) (entryAt?_path hx ▸ hb)
  rw [(normalize_ascending _).entryAt?_eq_some_iff.mpr ⟨hd, hdp⟩, Option.some.injEq] at hat
  rw [← hat, hdk, hfk] at hkind
  cases hkind

/-- Where no file hides a directory, all above an entry are directories. -/
theorem directory_of_not_hides (hno : ∀ path, ¬ Hides layers path) {e : Entry}
    (he : e ∈ layers.flatten) {dir : String} (hb : Below dir e.path) :
    ∃ x, entryAt? layers.flatten dir = some x ∧ x.kind = .directory := by
  obtain ⟨own, hown, heo⟩ := List.mem_flatten.mp he
  obtain ⟨d, hd, hdp, hdk⟩ := (h own hown).1.directory_of_below heo hb
  obtain ⟨x, hx⟩ := exists_entryAt?_of_mem (List.mem_flatten.mpr ⟨own, hown, hd⟩)
  rw [hdp] at hx
  refine ⟨x, hx, ?_⟩
  by_contra hxk
  have hxp := entryAt?_path hx
  have hxf : x.kind = .file := by
    cases hk : x.kind with
    | file => rfl
    | directory => exact absurd hk hxk
  -- The layer of the entry lists the directory, so it is the topmost one or under it.
  obtain ⟨lower, layer, upper, rfl, hxl, ho⟩ := exists_topmost hx
  rcases List.mem_append.mp hown with hu | hu
  · exact hno dir ⟨lower, layer, upper, rfl, ⟨x, hxl, hxp, hxf⟩, ho, own, hu, e, heo, hb⟩
  · rcases List.mem_cons.mp hu with rfl | hu
    · exact hxk (((h own (by simp)).2 x hxl d hd (hxp.trans hdp.symm)).trans hdk)
    · exact ho own hu d hd hdp

/-- Trees that are laid over each other are a tree exactly when no file hides a directory. -/
theorem isTree_flatten_iff :
    IsTree (normalize layers.flatten) ↔ ∀ path, ¬ Hides layers path := by
  refine ⟨not_hides_of_isTree h, fun hno => ⟨fun e he dir hdir => ?_, fun e he hk => ?_⟩⟩
  · obtain ⟨x, hx, hxk⟩ := directory_of_not_hides h hno (entryAt?_mem (mem_normalize.mp he))
      (mem_directoriesAbove.mp hdir)
    have hxp := entryAt?_path hx
    exact ⟨x, mem_normalize.mpr (by rw [hxp, hx]), hxp, hxk⟩
  · obtain ⟨own, hown, he⟩ := List.mem_flatten.mp (entryAt?_mem (mem_normalize.mp he))
    exact (h own hown).1.2 e he hk

end

/-! ## The layers of a result -/

theorem Entry.Ascending.oneKind {entries : List Entry} (h : Ascending entries) : OneKind entries :=
  fun a ha b hb hp => by rw [h.eq_of_path ha hb hp]

namespace Overlay

theorem place_injective (target : String) : Function.Injective (place target) := fun a b h => by
  rw [place, place] at h
  split at h
  · exact h
  · exact String.append_right_inj _ |>.mp h

/-- A relocated path is not on the way to its new place. -/
theorem place_ne_pathText {target rest : String} (ht : Canonical target) {front : List String}
    (hne : front ≠ []) (hf : front <+: Text.split '/' target) :
    place target rest ≠ pathText front := by
  intro he
  have hs := congrArg (Text.split '/') he
  rw [place, if_neg (by simpa using ht.ne_empty), Text.split_append,
    split_pathText hne fun n hn => ht n (hf.subset hn)] at hs
  exact Memory.not_prefix_append_self (Text.split_ne_nil '/' rest) (hs ▸ hf)

theorem oneKind_laid {generated : List Entry} (hg : Ascending generated) {source target : String}
    (ht : IsPlace target) : OneKind (laid generated source target) := by
  have hdirectory : ∀ e ∈ laid generated source target, e ∉ relocated generated source target →
      e.kind = .directory ∧ ∀ rest, e.path ≠ place target rest :=
    fun e he hno => by
      obtain ⟨-, hc, front, hne, hf, rfl⟩ := (mem_laid ht he).resolve_left hno
      exact ⟨rfl, fun rest => (place_ne_pathText hc hne hf).symm⟩
  intro a ha b hb hp
  by_cases hra : a ∈ relocated generated source target
  · obtain ⟨g, hgm, rest, hgp, rfl⟩ := mem_relocated.mp hra
    by_cases hrb : b ∈ relocated generated source target
    · obtain ⟨g', hgm', rest', hgp', rfl⟩ := mem_relocated.mp hrb
      obtain rfl := place_injective target hp
      rw [hg.eq_of_path hgm hgm' (hgp.trans hgp'.symm)]
    · exact absurd hp.symm ((hdirectory b hb hrb).2 rest)
  · obtain ⟨hak, hapart⟩ := hdirectory a ha hra
    by_cases hrb : b ∈ relocated generated source target
    · obtain ⟨g', -, rest', -, rfl⟩ := mem_relocated.mp hrb
      exact absurd hp (hapart rest')
    · rw [hak, (hdirectory b hb hrb).1]

/-- The build output, and over it one layer for each directory that is passed through. -/
def layers (built generated : List Entry) (passthrough : Table String String) :
    List (List Entry) :=
  built :: passthrough.entries.map fun (source, target) =>
    laid generated (trimSlashes source) (trimSlashes target)

theorem flatten_layers (built generated : List Entry) (passthrough : Table String String) :
    (layers built generated passthrough).flatten =
      built ++ (ofListing passthrough generated).entries := by
  rw [layers, List.flatten_cons, ofListing_entries, List.flatMap]

theorem isTree_layers {built generated : List Entry} (hb : IsTree built) (hba : Ascending built)
    (hg : IsTree generated) (hga : Ascending generated) {passthrough : Table String String}
    (hp : ∀ e ∈ passthrough.entries, IsPlace (trimSlashes e.2)) :
    ∀ l ∈ layers built generated passthrough, IsTree l ∧ OneKind l := by
  intro l hl
  rcases List.mem_cons.mp hl with rfl | hl
  · exact ⟨hb, hba.oneKind⟩
  · obtain ⟨pair, hpair, rfl⟩ := List.mem_map.mp hl
    exact ⟨isTree_laid hg (hp pair hpair), oneKind_laid hga (hp pair hpair)⟩

/-- What is laid over listings of any two trees is a tree exactly when no file of a layer hides a
directory of a layer under it. From a tree, the patch to it can be carried out step by step in just
these cases, and then leads to exactly what is listed. -/
theorem prepare_isTree_iff {m m' : Memory} (hm : m.Named) (hm' : m'.Named) {root root' : Path}
    {options options' : ListOptions} {built generated : List Entry}
    (hb : listTree m root options = .ok built) (hg : listTree m' root' options' = .ok generated)
    {passthrough : Table String String}
    (hp : ∀ e ∈ passthrough.entries, IsPlace (trimSlashes e.2)) {s : Snapshot}
    (hs : Ascending s.entries) (ht : IsTree s.entries) :
    let pending := s.prepare (built ++ (ofListing passthrough generated).entries)
    (IsTree pending.entries ↔ ∀ path, ¬ Hides (layers built generated passthrough) path) ∧
      ((∃ r, Replays (entryAt? s.entries) pending.patch r) ↔ IsTree pending.entries) ∧
      (IsTree pending.entries →
        Replays (entryAt? s.entries) pending.patch (entryAt? pending.entries)) := by
  obtain rfl := Except.ok.inj ((listTree_eq_listing hm root options).symm.trans hb)
  obtain rfl := Except.ok.inj ((listTree_eq_listing hm' root' options').symm.trans hg)
  have hlayers := isTree_layers (isTree_listing hm root options) (ascending_listing hm root options)
    (isTree_listing hm' root' options') (ascending_listing hm' root' options') hp
  have htoken : ∀ e ∈ normalize (layers (m.listing root options) (m'.listing root' options')
      passthrough).flatten, e.kind = .directory → e.token = .directory := fun e he hk => by
    obtain ⟨l, hl, he⟩ := List.mem_flatten.mp (entryAt?_mem (mem_normalize.mp he))
    exact (hlayers l hl).1.2 e he hk
  intro pending
  have hentries : pending.entries = normalize (layers (m.listing root options)
      (m'.listing root' options') passthrough).flatten := by rw [flatten_layers]; rfl
  rw [← hentries] at htoken
  have hna : Ascending pending.entries := normalize_ascending _
  refine ⟨?_, exists_replays_iff hs hna ht htoken, fun hn => replays_between hs hna ht hn⟩
  rw [hentries, isTree_flatten_iff hlayers]

end Overlay

namespace Displaced

open Effect Memory Merger

def options : MergeOptions where
  builtDir := "/up"
  generatedDir := "/gen"
  outputDir := "/out"
  passthrough := Table.ofList [("lazy", "assets/lazy")]

/-- A generated file beside a file of the build output. -/
def beside : Memory :=
  (Memory.empty "/out").addFiles [("/up/assets/lazy/q", "Q".toUTF8), ("/gen/lazy/p", "P".toUTF8)]

/-- Beside a file, the layers are a tree. -/
theorem beside_isTree :
    beside.Named ∧
    listTree beside "/up" {} = .ok (beside.walked "/up" {}) ∧
    listTree beside "/gen" {} = .ok (beside.walked "/gen" {}) ∧
    (∀ e ∈ options.passthrough.entries, Overlay.IsPlace (trimSlashes e.2)) ∧
    let pending := Snapshot.empty.prepare
      (beside.walked "/up" {} ++ (Overlay.ofListing options.passthrough
        (beside.walked "/gen" {})).entries)
    (∀ path, ¬ Hides (Overlay.layers (beside.walked "/up" {}) (beside.walked "/gen" {})
      options.passthrough) path) ∧
    Replays (fun _ => none) pending.patch (entryAt? pending.entries) := by
  have hm : beside.Named := by decide +kernel
  have hb : listTree beside "/up" {} = .ok (beside.walked "/up" {}) :=
    listTree_eq_walked hm (by decide +kernel)
  have hg : listTree beside "/gen" {} = .ok (beside.walked "/gen" {}) :=
    listTree_eq_walked hm (by decide +kernel)
  have hp : ∀ e ∈ options.passthrough.entries, Overlay.IsPlace (trimSlashes e.2) := by
    decide +kernel
  obtain ⟨hiff, -, hreplays⟩ := Overlay.prepare_isTree_iff hm hm hb hg hp (s := .empty) .nil
    ⟨nofun, nofun⟩
  have ht : IsTree (Snapshot.empty.prepare (beside.walked "/up" {} ++
      (Overlay.ofListing options.passthrough (beside.walked "/gen" {})).entries)).entries := by
    have hsorted : normalize (beside.walked "/up" {} ++
        (Overlay.ofListing options.passthrough (beside.walked "/gen" {})).entries) =
        [.dir "assets", .dir "assets/lazy", .file "assets/lazy/p" (.stat 1 (some 2)),
          .file "assets/lazy/q" (.stat 1 (some 1))] :=
      normalize_eq (by decide +kernel) (by decide +kernel)
    rw [Snapshot.prepare, hsorted]
    decide +kernel
  exact ⟨hm, hb, hg, hp, hiff.mp ht, hreplays ht⟩

/-- A generated file in the place of a directory of the build output. -/
def scene : Memory :=
  (Memory.empty "/out").addFiles
    [("/up/assets/lazy/p/x", "X".toUTF8), ("/gen/lazy/p", "P".toUTF8)]

/-- What is listed of the layers: the file and, still, what the directory holds. -/
def carried : List Entry :=
  [.dir "assets", .dir "assets/lazy", .file "assets/lazy/p" (.stat 1 (some 2)),
    .file "assets/lazy/p/x" (.stat 1 (some 1))]

theorem normalize_scene : normalize (scene.walked "/up" {} ++
    (Overlay.ofListing options.passthrough (scene.walked "/gen" {})).entries) = carried :=
  normalize_eq (by decide +kernel) (by decide +kernel)

/-- The first build is to write below the file and fails. -/
theorem scene_not_carried :
    scene.Named ∧ (∀ e ∈ options.passthrough.entries, Canonical e.1 ∧ Canonical e.2) ∧
    ∃ built generated, listTree scene options.builtDir options.listOptions = .ok built ∧
      listTree scene options.generatedDir options.listOptions = .ok generated ∧
      let pending := Snapshot.empty.prepare
        (built ++ (Overlay.ofListing options.passthrough generated).entries)
      ¬ IsTree pending.entries ∧ (¬ ∃ r, Replays (fun _ => none) pending.patch r) ∧
      ∃ cause m, outcome (create options).build scene =
        (.error (.failed .write "/out/assets/lazy/p/x" cause), m) := by
  have hm : scene.Named := by decide +kernel
  have hba : Ascending (scene.walked "/up" {}) := by decide +kernel
  have hga : Ascending (scene.walked "/gen" {}) := by decide +kernel
  refine ⟨hm, by decide +kernel, _, _, listTree_eq_walked hm hba, listTree_eq_walked hm hga, ?_⟩
  intro pending
  have hentries : pending.entries = carried := normalize_scene
  have hno : ¬ IsTree pending.entries := by
    rw [hentries]
    decide +kernel
  refine ⟨hno, fun h => hno ?_, ?_⟩
  · have hfrom : Ascending [] := .nil
    refine (exists_replays_iff hfrom (normalize_ascending _) ⟨nofun, nofun⟩ ?_).mp h
    change ∀ e ∈ pending.entries, _
    rw [hentries]
    decide +kernel
  · have hlisting : options.generatedListing scene = scene.walked "/gen" {} :=
      listing_eq_walked hm hga
    have hoverlay : options.overlay scene =
        Overlay.ofListing options.passthrough (scene.walked "/gen" {}) := by
      rw [MergeOptions.overlay, hlisting]
    have hmerged : options.merged scene = carried := by
      rw [MergeOptions.merged, MergeOptions.laidOver, hoverlay, MergeOptions.builtListing,
        ← normalize_scene]
      exact congrArg (fun l => normalize (l ++ _)) (listing_eq_walked hm hba)
    rw [← after_nothing, outcome_build hm, MergeOptions.builtPatch, MergeOptions.merged_nothing,
      hmerged, hoverlay, after_nothing]
    have hfails : (outcome (summed ((create options).apply (Overlay.ofListing options.passthrough
        (scene.walked "/gen" {}))) (Patch.between [] carried)) (scene.addDir "/out")).1 =
        .error (.failed .write "/out/assets/lazy/p/x" (.notFound "/out/assets/lazy/p/x")) := by
      decide +kernel
    exact ⟨_, _, outcome_bind_of_error (Prod.ext hfails rfl) _⟩

end Displaced

end VendorBundle
