import VendorBundle.Proofs.Tree.Exact
import VendorBundle.Proofs.Tree.Listing
import VendorBundle.Proofs.Tree.Replay

/-!
# Only trees are arrived at

From a tree, a patch can be carried out step by step exactly when the new listing is a tree too. A
listed path that misses a directory above it is either added where there is no directory, or still
stands in the directory that is to be removed.
-/

namespace VendorBundle

open Entry

/-! ## Parts of a patch -/

namespace Replays

variable {r s : Recorded} {ops : Patch}

/-- A step of a patch makes sense where the steps in front of it lead. -/
theorem exists_valid {op : PatchOp} {ops' : Patch} (h : Replays r (ops ++ op :: ops') s) :
    ∃ t, Replays r ops t ∧ op.Valid t := by
  induction ops generalizing r with
  | nil =>
      cases h with
      | step hv _ => exact ⟨r, .done r, hv⟩
  | cons o ops ih =>
      cases h with
      | step hv h =>
          obtain ⟨t, ht, hop⟩ := ih h
          exact ⟨t, .step hv ht, hop⟩

/-- What is recorded in the end was recorded before, or a step about the path leaves it. -/
theorem recorded (h : Replays r ops s) (path : String) :
    ((∀ op ∈ ops, op.path ≠ path) ∧ s path = r path) ∨
      ∃ op ∈ ops, op.path = path ∧ s path = op.leaves? := by
  induction h with
  | done r => exact .inl ⟨nofun, rfl⟩
  | @step r s op ops _ _ ih =>
      rcases ih with ⟨hno, hs⟩ | ⟨op', hop, hp, hs⟩
      · by_cases hp : op.path = path
        · refine .inr ⟨op, List.mem_cons_self, hp, ?_⟩
          rw [hs, PatchOp.carry, ← hp, Recorded.put_self]
        · refine .inl ⟨List.forall_mem_cons.mpr ⟨hp, hno⟩, ?_⟩
          rw [hs, PatchOp.carry, Recorded.put_of_ne _ _ hp]
      · exact .inr ⟨op', List.mem_cons_of_mem _ hop, hp, hs⟩

theorem untouched (h : Replays r ops s) {path : String} (hp : ∀ op ∈ ops, op.path ≠ path) :
    s path = r path := by
  rcases h.recorded path with ⟨-, hs⟩ | ⟨op, hop, he, -⟩
  · exact hs
  · exact absurd he (hp op hop)

end Replays

/-- What arrives for an entry leaves one of its kind. -/
theorem PatchOp.kind_of_leaves? {olds : List Entry} {new x : Entry} {op : PatchOp}
    (ha : Patch.arrival? olds new = some op) (hx : op.leaves? = some x) : x.kind = new.kind := by
  rcases Patch.op_of_arrival? ha with rfl | ⟨rfl, -⟩
  · rw [addition] at hx
    cases hk : new.kind <;> rw [hk] at hx <;> cases hx
    · exact hk
    · rfl
  · cases hx
    rfl

/-! ## The directory above a path -/

/-- Above a path there is a directory that it is directly below, at or below a given one. -/
theorem Below.exists_directlyBelow {dir path : String} (h : Below dir path) :
    ∃ parent, DirectlyBelow parent path ∧ (dir = parent ∨ Below dir parent) := by
  obtain ⟨rest, hne, hs⟩ := below_iff_split.mp h
  obtain ⟨middle, name, rfl⟩ := (List.eq_nil_or_concat rest).resolve_left hne
  rw [List.concat_eq_append, ← List.append_assoc] at hs
  have hfree : ∀ n ∈ Text.split '/' path, '/' ∉ n.toList := fun n => Text.not_mem_of_mem_split
  rw [hs] at hfree
  have hne : Text.split '/' dir ++ middle ≠ [] := by simp [Text.split_ne_nil]
  refine ⟨pathText (Text.split '/' dir ++ middle), ⟨name, hfree name (by simp), ?_⟩, ?_⟩
  · rw [← Text.intercalate_split path, hs, pathText,
      String.intercalate_append_of_ne_nil hne (by simp)]
    simp
  · rw [below_or_eq_iff_prefix_split, pathText,
      Text.split_intercalate hne fun n hn => hfree n (List.mem_append_left _ hn)]
    exact List.prefix_append _ _

/-- A listing is a tree when every path stands in a listed directory. -/
theorem isTree_of_directlyBelow {entries : List Entry}
    (h : ∀ e ∈ entries, ∀ dir, DirectlyBelow dir e.path →
      ∃ d ∈ entries, d.path = dir ∧ d.kind = .directory)
    (ht : ∀ e ∈ entries, e.kind = .directory → e.token = .directory) : IsTree entries := by
  refine ⟨fun e he dir hdir => ?_, ht⟩
  have hb := mem_directoriesAbove.mp hdir
  clear hdir
  -- The way up ends, since each directory is a shorter text.
  induction hn : e.path.length using Nat.strongRecOn generalizing e with
  | ind n ih =>
      obtain ⟨parent, hparent, hup⟩ := hb.exists_directlyBelow
      obtain ⟨d, hd, hdp, hdk⟩ := h e he parent hparent
      rcases hup with rfl | hup
      · exact ⟨d, hd, hdp, hdk⟩
      · refine ih d.path.length ?_ d hd (hdp ▸ hup) rfl
        obtain ⟨name, -, hpath⟩ := hparent
        rw [← hn, hpath, hdp]
        simp only [String.length_append]
        have hslash : "/".length = 1 := rfl
        omega

/-! ## Carrying out a patch -/

section

variable {olds news : List Entry}

theorem exists_of_not_isGone (hna : Ascending news) {e : Entry} (h : ¬ Patch.isGone news e) :
    ∃ n ∈ news, n.path = e.path ∧ n.kind = e.kind := by
  rw [Patch.isGone_iff, hna.kindAt?_ne_iff] at h
  simpa using h

theorem mem_reverse_removals {op : PatchOp} :
    op ∈ ((olds.filter (Patch.isGone news)).map .removal).reverse ↔
      ∃ d ∈ olds, Patch.isGone news d ∧ op = .removal d := by
  rw [List.mem_reverse, List.mem_map]
  simp only [List.mem_filter, and_assoc, eq_comm]

variable (hoa : Ascending olds) (hna : Ascending news) {r : Recorded}
  (h : Replays (entryAt? olds) (Patch.between olds news) r) {e : Entry} (he : e ∈ news)
  {dir : String} (hdir : DirectlyBelow dir e.path)

include hoa hna h he hdir

/-- The old directory above a path that stays is not removed, since it is not empty then. -/
theorem exists_kept_directory (ho : IsTree olds) (hk : kindAt? olds e.path = some e.kind) :
    ∃ d ∈ olds, d.path = dir ∧ d.kind = .directory ∧ ¬ Patch.isGone news d := by
  obtain ⟨old, hold, holdk⟩ := kindAt?_eq_some_iff.mp hk
  obtain ⟨d, hd, hdp, hdk⟩ :=
    ho.directory_of_below (entryAt?_mem hold) (entryAt?_path hold ▸ hdir.below)
  refine ⟨d, hd, hdp, hdk, fun hgone => ?_⟩
  obtain ⟨front, rest, hsplit⟩ := List.append_of_mem
    (mem_reverse_removals.mpr ⟨d, hd, hgone, rfl⟩)
  rw [Patch.between_eq hoa hna, hsplit, List.append_assoc, List.cons_append] at h
  obtain ⟨t, ht, hvalid⟩ := h.exists_valid
  rw [PatchOp.removal, hdk] at hvalid
  have hstays : t e.path = some old := by
    rw [ht.untouched fun op hop hp => ?_, hold]
    obtain ⟨x, hxm, hxg, rfl⟩ := mem_reverse_removals.mp (hsplit ▸ List.mem_append_left _ hop)
    rw [PatchOp.path_removal] at hp
    obtain rfl := hoa.eq_of_path hxm (entryAt?_mem hold) (hp.trans (entryAt?_path hold).symm)
    rw [Patch.isGone_iff, hna.kindAt?_ne_iff] at hxg
    exact hxg e he hp.symm holdk.symm
  exact Option.some_ne_none _ (hstays.symm.trans (hvalid.2 e.path (hdp ▸ hdir.below)))

/-- When a path is added there is a directory above it, one that was not removed or one that was
added before. -/
theorem exists_recorded_directory (hk : kindAt? olds e.path ≠ some e.kind) :
    (∃ d ∈ olds, d.path = dir ∧ d.kind = .directory ∧ ¬ Patch.isGone news d) ∨
      ∃ d ∈ news, d.path = dir ∧ d.kind = .directory := by
  have hmem : PatchOp.addition e ∈ news.filterMap (Patch.arrival? olds) :=
    List.mem_filterMap.mpr ⟨e, he, Patch.arrival?_eq_some_iff.mpr (.inl ⟨hk, rfl⟩)⟩
  obtain ⟨front, rest, hsplit⟩ := List.append_of_mem hmem
  rw [Patch.between_eq hoa hna, hsplit, ← List.append_assoc] at h
  obtain ⟨t, ht, hvalid⟩ := h.exists_valid
  have hadd : t.Addable e.path := by
    rw [PatchOp.addition] at hvalid
    cases hek : e.kind <;> rw [hek] at hvalid <;> exact hvalid
  obtain ⟨x, hx, hxk⟩ := hadd.2 dir hdir
  rcases ht.recorded dir with ⟨huntouched, hs⟩ | ⟨op, hop, hp, hs⟩
  · rw [hs] at hx
    refine .inl ⟨x, entryAt?_mem hx, entryAt?_path hx, hxk, fun hgone => ?_⟩
    refine huntouched (.removal x) (List.mem_append_left _ ?_) ?_
    · exact mem_reverse_removals.mpr ⟨x, entryAt?_mem hx, hgone, rfl⟩
    · rw [PatchOp.path_removal, entryAt?_path hx]
  · rw [hs] at hx
    rcases List.mem_append.mp hop with hop | hop
    · obtain ⟨d, -, -, rfl⟩ := mem_reverse_removals.mp hop
      rw [PatchOp.leaves?_removal] at hx
      cases hx
    · have hop : op ∈ news.filterMap (Patch.arrival? olds) :=
        hsplit ▸ List.mem_append_left _ hop
      obtain ⟨new, hnew, ha⟩ := List.mem_filterMap.mp hop
      exact .inr ⟨new, hnew, (Patch.path_of_arrival? ha).symm.trans hp,
        PatchOp.kind_of_leaves? ha hx ▸ hxk⟩

/-- After a patch that can be carried out from a tree, every path stands in a directory. -/
theorem directory_of_replays (ho : IsTree olds) :
    ∃ d ∈ news, d.path = dir ∧ d.kind = .directory := by
  have hfound : (∃ d ∈ olds, d.path = dir ∧ d.kind = .directory ∧ ¬ Patch.isGone news d) ∨
      ∃ d ∈ news, d.path = dir ∧ d.kind = .directory := by
    by_cases hk : kindAt? olds e.path = some e.kind
    · exact .inl (exists_kept_directory hoa hna h he hdir ho hk)
    · exact exists_recorded_directory hoa hna h he hdir hk
  rcases hfound with ⟨d, -, rfl, hd, hstays⟩ | hfound
  · obtain ⟨n, hn, hp, hk⟩ := exists_of_not_isGone hna hstays
    exact ⟨n, hn, hp, hk.trans hd⟩
  · exact hfound

end

variable {olds news : List Entry}

/-- From a tree, a patch can be carried out step by step exactly when it leads to a tree. -/
theorem exists_replays_iff (hoa : Ascending olds) (hna : Ascending news) (ho : IsTree olds)
    (ht : ∀ e ∈ news, e.kind = .directory → e.token = .directory) :
    (∃ r, Replays (entryAt? olds) (Patch.between olds news) r) ↔ IsTree news := by
  constructor
  · rintro ⟨r, h⟩
    exact isTree_of_directlyBelow (fun e he dir hdir => directory_of_replays hoa hna h he hdir ho)
      ht
  · exact fun hn => ⟨_, replays_between hoa hna ho hn⟩

end VendorBundle
