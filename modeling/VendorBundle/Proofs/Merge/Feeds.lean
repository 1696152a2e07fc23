import VendorBundle.Merge.Options
import VendorBundle.Proofs.Path.Components
import VendorBundle.Proofs.Table

/-!
# Which files a generated file is added to

A generated file right inside a mapped directory reaches every file that the directory is mapped to
for its extension, since no other mapped directory on the way to it is longer.
-/

namespace VendorBundle

/-! ## Extensions -/

/-- Only the last name of a path decides on its extension. -/
theorem extensionOf?_append (dir : String) {name : String} (h : '/' ∉ name.toList) :
    extensionOf? (dir ++ "/" ++ name) = extensionOf? name := by
  have htext : (dir ++ "/" ++ name).toList = dir.toList ++ '/' :: name.toList := by
    simp [String.toList_append]
  have hname : Text.cutLast? '/' name.toList = none := by
    rw [Text.cutLast?, Text.cut?_of_not_mem (by simpa using h)]
    rfl
  simp only [extensionOf?, htext, Text.cutLast?_append h, hname]

namespace Feeds

/-! ## The table of feeds -/

/-- The files that a directory and an extension are mapped to. -/
def fedBy (feeds : Feeds) (source : FragmentSource) : List String :=
  ((feeds.get? source.subdir).bind (·.get? source.extension)).getD []

theorem fedBy_add (feeds : Feeds) (target : String) (source source' : FragmentSource) :
    (feeds.add target source).fedBy source' =
      if source = source' then feeds.fedBy source' ++ [target] else feeds.fedBy source' := by
  obtain ⟨subdir, extension⟩ := source
  obtain ⟨subdir', extension'⟩ := source'
  simp only [fedBy, add, Table.get?_insert]
  by_cases hs : subdir = subdir'
  · subst hs
    rw [if_pos rfl, Option.bind_some, Table.get?_insert]
    by_cases he : extension = extension'
    · subst he
      cases feeds.get? subdir <;> simp
    · cases feeds.get? subdir <;> simp [he]
  · simp [hs]

theorem mem_fedBy_foldl {entries : List (String × FragmentSource)} {feeds : Feeds}
    {target : String} {source : FragmentSource} :
    target ∈ (entries.foldl (fun feeds (target, source) => add feeds target source) feeds).fedBy
        source ↔ target ∈ feeds.fedBy source ∨ (target, source) ∈ entries := by
  induction entries generalizing feeds with
  | nil => simp
  | cons entry entries ih =>
      obtain ⟨target', source'⟩ := entry
      rw [List.foldl_cons, ih, fedBy_add]
      by_cases hs : source' = source
      · subst hs
        simp [or_assoc]
      · simp [hs, Ne.symm hs]

theorem mem_fedBy_ofTargets {targets : Table String FragmentSource} {target : String}
    {source : FragmentSource} :
    target ∈ (ofTargets targets).fedBy source ↔ targets.get? target = some source := by
  rw [ofTargets, mem_fedBy_foldl, Table.get?_eq_some_iff]
  simp [fedBy]

theorem mem_keys_add {feeds : Feeds} {target dir : String} {source : FragmentSource} :
    dir ∈ (feeds.add target source).keys ↔ dir = source.subdir ∨ dir ∈ feeds.keys := by
  rw [← Table.contains_iff, ← Table.contains_iff, add, Table.contains, Table.contains,
    Table.get?_insert]
  by_cases h : source.subdir = dir
  · simp [h]
  · simp [h, Ne.symm h]

theorem mem_keys_foldl {entries : List (String × FragmentSource)} {feeds : Feeds} {dir : String} :
    dir ∈ (entries.foldl (fun feeds (target, source) => add feeds target source) feeds).keys ↔
      dir ∈ feeds.keys ∨ ∃ e ∈ entries, e.2.subdir = dir := by
  induction entries generalizing feeds with
  | nil => simp
  | cons entry entries ih =>
      rw [List.foldl_cons, ih, mem_keys_add]
      constructor
      · rintro ((rfl | h) | ⟨e, he, hd⟩)
        · exact .inr ⟨entry, List.mem_cons_self, rfl⟩
        · exact .inl h
        · exact .inr ⟨e, List.mem_cons_of_mem _ he, hd⟩
      · rintro (h | ⟨e, he, hd⟩)
        · exact .inl (.inr h)
        · rcases List.mem_cons.mp he with rfl | he
          · exact .inl (.inl hd.symm)
          · exact .inr ⟨e, he, hd⟩

theorem mem_keys_ofTargets {targets : Table String FragmentSource} {dir : String} :
    dir ∈ (ofTargets targets).keys ↔ ∃ target source,
      targets.get? target = some source ∧ source.subdir = dir := by
  rw [ofTargets, mem_keys_foldl]
  simp only [Table.get?_eq_some_iff, Prod.exists]
  constructor
  · rintro (h | h)
    · exact absurd h (by simp [Table.keys, EmptyCollection.emptyCollection, Table.empty])
    · exact h
  · exact .inr

/-! ## The longest directory -/

theorem foldl_longer_mem (dir : String) (dirs : List String) :
    dirs.foldl longer dir ∈ dir :: dirs := by
  induction dirs generalizing dir with
  | nil => simp
  | cons next dirs ih =>
      have h := ih (longer dir next)
      rw [List.foldl_cons]
      rcases List.mem_cons.mp h with h | h
      · rw [h, longer]
        split <;> simp
      · simp [h]

theorem le_foldl_longer (dir : String) (dirs : List String) :
    ∀ d ∈ dir :: dirs, d.utf8ByteSize ≤ (dirs.foldl longer dir).utf8ByteSize := by
  induction dirs generalizing dir with
  | nil => simp
  | cons next dirs ih =>
      have hfirst := ih (longer dir next) _ List.mem_cons_self
      have hlonger : dir.utf8ByteSize ≤ (longer dir next).utf8ByteSize ∧
          next.utf8ByteSize ≤ (longer dir next).utf8ByteSize := by
        rw [longer]
        split <;> omega
      intro d hd
      rw [List.foldl_cons]
      rcases List.mem_cons.mp hd with rfl | hd
      · omega
      · rcases List.mem_cons.mp hd with rfl | hd
        · omega
        · exact ih (longer dir next) d (List.mem_cons_of_mem _ hd)

theorem covers_self_append (dir rest : String) : covers dir (dir ++ "/" ++ rest) = true := by
  have htext : (dir ++ "/" ++ rest).toList = dir.toList ++ '/' :: rest.toList := by
    simp [String.toList_append]
  simp [covers, htext, Text.stripStart?_append]

/-- Another directory on the way to a file is on the way to the one that holds the file. -/
theorem exists_append_of_split {dir other name rest : String} (hname : '/' ∉ name.toList)
    (ho : other ≠ dir) (h : dir ++ "/" ++ name = other ++ "/" ++ rest) :
    ∃ more, dir = other ++ "/" ++ more := by
  have hs := congrArg (Text.split '/') h
  rw [Text.split_append, Text.split_append, Text.split_of_not_mem hname] at hs
  obtain ⟨init, last, hlast⟩ :=
    List.eq_nil_or_concat' _ |>.resolve_left (Text.split_ne_nil '/' rest)
  rw [hlast, ← List.append_assoc] at hs
  obtain ⟨hinit, -⟩ := List.append_inj' hs rfl
  have hi : init ≠ [] := by
    rintro rfl
    rw [List.append_nil] at hinit
    exact ho (Text.split_injective hinit.symm)
  refine ⟨"/".intercalate init, ?_⟩
  rw [← Text.intercalate_split dir, hinit,
    String.intercalate_append_of_ne_nil (Text.split_ne_nil _ _) hi, Text.intercalate_split]

/-- So it is shorter. -/
theorem size_lt_of_covers {dir other name : String} (hname : '/' ∉ name.toList) (hdir : dir ≠ "")
    (hc : covers other (dir ++ "/" ++ name) = true) (hne : other ≠ dir ++ "/" ++ name)
    (ho : other ≠ dir) : other.utf8ByteSize < dir.utf8ByteSize := by
  have hpos : 0 < dir.utf8ByteSize :=
    Nat.pos_of_ne_zero fun hz => hdir (String.utf8ByteSize_eq_zero_iff.mp hz)
  rw [covers] at hc
  split at hc
  · rename_i rest hstrip
    have htext := Text.stripStart?_eq_some_iff.mp hstrip
    match rest with
    | [] =>
        exact absurd (String.toList_injective (by rw [htext, List.append_nil])) hne
    | c :: rest =>
        by_cases hempty : other = ""
        · rw [hempty]
          exact hpos
        · have hslash : c = '/' := by simpa [hempty] using hc
          have hsplit : dir ++ "/" ++ name = other ++ "/" ++ String.ofList rest := by
            apply String.toList_injective
            rw [htext, hslash]
            simp [String.toList_append]
          obtain ⟨more, rfl⟩ := exists_append_of_split hname ho hsplit
          rw [String.utf8ByteSize_append, String.utf8ByteSize_append]
          have hone : "/".utf8ByteSize = 1 := rfl
          omega
  · exact absurd hc (by simp)

theorem dirOf?_eq_some {feeds : Feeds} {dir name : String} (hname : '/' ∉ name.toList)
    (hdir : dir ≠ "") (hk : dir ∈ feeds.keys) (hne : dir ++ "/" ++ name ∉ feeds.keys) :
    feeds.dirOf? (dir ++ "/" ++ name) = some dir := by
  have hmem : dir ∈ feeds.keys.filter (covers · (dir ++ "/" ++ name)) :=
    List.mem_filter.mpr ⟨hk, covers_self_append dir name⟩
  rw [dirOf?]
  split
  · rename_i hnil
    rw [hnil] at hmem
    exact absurd hmem List.not_mem_nil
  · rename_i first rest hcons
    rw [hcons] at hmem
    have hresult := foldl_longer_mem first rest
    have hle := le_foldl_longer first rest dir hmem
    rw [← hcons] at hresult
    obtain ⟨hrk, hrc⟩ := List.mem_filter.mp hresult
    by_contra hother
    have := size_lt_of_covers hname hdir hrc (fun he => hne (he ▸ hrk)) fun he =>
      hother (congrArg some he)
    omega

/-! ## From files to targets -/

/-- A change of a file right inside a mapped directory reaches the files that the directory is
mapped to for its extension. -/
theorem mem_targetsOf {targets : Table String FragmentSource} {target name : String}
    {source : FragmentSource} (ht : targets.get? target = some source)
    (hname : '/' ∉ name.toList) (hdir : source.subdir ≠ "")
    (he : extensionOf? name = some source.extension)
    (hne : source.subdir ++ "/" ++ name ∉ (ofTargets targets).keys) :
    target ∈ (ofTargets targets).targetsOf (source.subdir ++ "/" ++ name) := by
  have hk := mem_keys_ofTargets.mpr ⟨target, source, ht, rfl⟩
  rw [targetsOf, dirOf?_eq_some hname hdir hk hne, extensionOf?_append _ hname, he]
  exact mem_fedBy_ofTargets.mpr ht

/-- The longest directory that covers a path is one of the mapped directories. -/
theorem dirOf?_spec {feeds : Feeds} {path dir : String} (h : feeds.dirOf? path = some dir) :
    (dir ∈ feeds.keys ∧ covers dir path = true) ∧
      ∀ other ∈ feeds.keys, covers other path = true →
        other.utf8ByteSize ≤ dir.utf8ByteSize := by
  rw [dirOf?] at h
  split at h
  · cases h
  · rename_i first rest hcons
    obtain rfl := Option.some.inj h
    refine ⟨List.mem_filter.mp (hcons ▸ foldl_longer_mem first rest), fun other hk hc => ?_⟩
    exact le_foldl_longer first rest other (hcons ▸ List.mem_filter.mpr ⟨hk, hc⟩)

/-- A change only reaches the files that the longest directory and the extension are mapped to. -/
theorem source_of_mem_targetsOf {targets : Table String FragmentSource} {target path : String}
    (h : target ∈ (ofTargets targets).targetsOf path) :
    ∃ source, targets.get? target = some source ∧
      (ofTargets targets).dirOf? path = some source.subdir ∧
      extensionOf? path = some source.extension := by
  rw [targetsOf] at h
  split at h
  · rename_i dir extension hdir hext
    exact ⟨⟨dir, extension⟩, mem_fedBy_ofTargets.mp h, hdir, hext⟩
  · exact absurd h List.not_mem_nil

theorem contains_of_mem_targetsOf {targets : Table String FragmentSource} {target path : String}
    (h : target ∈ (ofTargets targets).targetsOf path) : targets.contains target = true := by
  obtain ⟨source, hs, -, -⟩ := source_of_mem_targetsOf h
  rw [Table.contains, hs]
  rfl

end Feeds

end VendorBundle
