import Mathlib.Data.List.Induction
import VendorBundle.Proofs.Tree.Diff

/-!
# Replaying patches

Carried out step by step, the patches between listings that are trees never remove what is not
there or still holds something, and never add below a place that is no directory. They lead from
one listing to the next exactly.
-/

namespace VendorBundle

open Entry

/-! ## Trees -/

/-- The directories above a path. -/
def directoriesAbove (path : String) : List String :=
  let segments := Text.split '/' path
  (List.range (segments.length - 1)).map fun n => "/".intercalate (segments.take (n + 1))

/-- Every directory above a path is listed as a directory, and directories have no other token than
their own. -/
def IsTree (entries : List Entry) : Prop :=
  (∀ e ∈ entries, ∀ dir ∈ directoriesAbove e.path,
    ∃ d ∈ entries, d.path = dir ∧ d.kind = .directory) ∧
  ∀ e ∈ entries, e.kind = .directory → e.token = .directory

instance (entries : List Entry) : Decidable (IsTree entries) :=
  inferInstanceAs (Decidable (_ ∧ _))

theorem mem_directoriesAbove {dir path : String} : dir ∈ directoriesAbove path ↔ Below dir path := by
  rw [below_iff_split]
  simp only [directoriesAbove, List.mem_map, List.mem_range]
  constructor
  · rintro ⟨n, hn, rfl⟩
    refine ⟨(Text.split '/' path).drop (n + 1), ?_, ?_⟩
    · simp only [ne_eq, List.drop_eq_nil_iff]
      omega
    · rw [Text.split_intercalate, List.take_append_drop]
      · simp [Text.split_ne_nil]
      · exact fun s hs => Text.not_mem_of_mem_split (List.mem_of_mem_take hs)
  · rintro ⟨rest, hne, h⟩
    have hd := List.length_pos_iff.mpr (Text.split_ne_nil '/' dir)
    have hr := List.length_pos_iff.mpr hne
    refine ⟨(Text.split '/' dir).length - 1, ?_, ?_⟩
    · rw [h, List.length_append]
      omega
    · rw [h, Nat.sub_add_cancel hd, List.take_left, Text.intercalate_split]

theorem IsTree.directory_of_below {entries : List Entry} (h : IsTree entries) {e : Entry}
    (he : e ∈ entries) {dir : String} (hb : Below dir e.path) :
    ∃ d ∈ entries, d.path = dir ∧ d.kind = .directory :=
  h.1 e he dir (mem_directoriesAbove.mpr hb)

theorem IsTree.eq_dir {entries : List Entry} (h : IsTree entries) {e : Entry} (he : e ∈ entries)
    (hk : e.kind = .directory) : e = Entry.dir e.path := by
  have ht := h.2 e he hk
  cases e
  simp_all [Entry.dir]

/-- Entries of two trees at one path are one entry when they are of one kind and, for files, have one
token. -/
theorem IsTree.eq_of_same {entries entries' : List Entry} (h : IsTree entries)
    (h' : IsTree entries') {e e' : Entry} (he : e ∈ entries) (he' : e' ∈ entries')
    (hp : e.path = e'.path) (hk : e.kind = e'.kind) (ht : e.kind = .file → e.token = e'.token) :
    e = e' := by
  cases hkind : e.kind with
  | file =>
      specialize ht hkind
      obtain ⟨path, kind, token⟩ := e
      obtain ⟨path', kind', token'⟩ := e'
      simp only at hp hk ht
      rw [hp, hk, ht]
  | directory => rw [h.eq_dir he hkind, h'.eq_dir he' (hk ▸ hkind), hp]

/-! ## Steps -/

/-- What is recorded at each path. -/
abbrev Recorded := String → Option Entry

/-- A path is right below a directory. -/
def DirectlyBelow (dir path : String) : Prop :=
  ∃ name : String, '/' ∉ name.toList ∧ path = dir ++ "/" ++ name

namespace Recorded

/-- What is recorded once a path has the given entry or none. -/
def put (r : Recorded) (path : String) (e : Option Entry) : Recorded :=
  fun p => if path = p then e else r p

@[simp] theorem put_self (r : Recorded) (path : String) (e : Option Entry) :
    r.put path e path = e := if_pos rfl

theorem put_of_ne (r : Recorded) {path p : String} (e : Option Entry) (h : path ≠ p) :
    r.put path e p = r p := if_neg h

theorem put_of_eq {r : Recorded} {path : String} {e : Option Entry} (h : r path = e) :
    r.put path e = r := by
  funext p
  by_cases hp : path = p
  · rw [← hp, r.put_self, h]
  · exact r.put_of_ne e hp

def Holds (r : Recorded) (path : String) (kind : EntryKind) : Prop :=
  ∃ e, r path = some e ∧ e.kind = kind

/-- The path has an entry of the kind, and nothing is below it. -/
def Removable (r : Recorded) (path : String) (kind : EntryKind) : Prop :=
  r.Holds path kind ∧ ∀ p, Below path p → r p = none

/-- The path is free, and what it stands in is a directory. -/
def Addable (r : Recorded) (path : String) : Prop :=
  r path = none ∧ ∀ dir, DirectlyBelow dir path → r.Holds dir .directory

end Recorded

namespace PatchOp

/-- The step makes sense where `r` is recorded. -/
def Valid (r : Recorded) : PatchOp → Prop
  | unlink path => r.Removable path .file
  | rmdir path => r.Removable path .directory
  | mkdir path | create path _ => r.Addable path
  | change path _ => r.Holds path .file

/-- What is recorded at the path of a step afterwards. -/
def leaves? : PatchOp → Option Entry
  | unlink _ | rmdir _ => none
  | mkdir path => some (.dir path)
  | change _ e | create _ e => some e

/-- What is recorded after a step. -/
def carry (r : Recorded) (op : PatchOp) : Recorded := r.put op.path op.leaves?

end PatchOp

/-- All steps of a patch make sense one after the other and lead from `r` to `s`. -/
inductive Replays : Recorded → Patch → Recorded → Prop where
  | done (r) : Replays r [] r
  | step {r s op ops} : op.Valid r → Replays (op.carry r) ops s → Replays r (op :: ops) s

theorem Replays.append {r s t : Recorded} {ops ops' : Patch} (h : Replays r ops s)
    (h' : Replays s ops' t) : Replays r (ops ++ ops') t := by
  induction h with
  | done r => exact h'
  | step hv _ ih => exact .step hv (ih h')

/-! ## Removals -/

theorem PatchOp.leaves?_removal (e : Entry) : (removal e).leaves? = none := by
  unfold removal
  cases e.kind <;> rfl

theorem PatchOp.valid_removal {r : Recorded} {e : Entry} (he : r e.path = some e)
    (hb : ∀ p, Below e.path p → r p = none) : (removal e).Valid r := by
  unfold removal
  cases hk : e.kind <;> exact ⟨⟨e, he, hk⟩, hb⟩

/-- Ascending entries can be removed in descending order when all that is below one of them is to be
removed as well. -/
theorem replays_removals {r : Recorded} {gone : List Entry} (ha : Ascending gone)
    (hr : ∀ e ∈ gone, r e.path = some e)
    (hb : ∀ e ∈ gone, ∀ p, Below e.path p → r p ≠ none → ∃ x ∈ gone, x.path = p) :
    Replays r (gone.map .removal).reverse
      (fun p => if (entryAt? gone p).isSome then none else r p) := by
  induction gone using List.reverseRecOn generalizing r with
  | nil => exact .done r
  | append_singleton gone e ih =>
      obtain ⟨ha', -, hlt⟩ := List.pairwise_append.mp ha
      have hlast : ∀ x ∈ gone, comparePaths x.path e.path = .lt := fun x hx => hlt x hx e (by simp)
      rw [List.map_append, List.reverse_append]
      refine .step (PatchOp.valid_removal (hr e (by simp)) fun p hp => ?_) ?_
      · by_contra hne
        obtain ⟨x, hx, rfl⟩ := hb e (by simp) p hp hne
        rcases List.mem_append.mp hx with hx | hx
        · have := Std.TransCmp.lt_trans hp.lt (hlast x hx)
          simp at this
        · exact hp.ne (by rw [List.mem_singleton.mp hx])
      · rw [PatchOp.carry, PatchOp.path_removal, PatchOp.leaves?_removal]
        have hrest := ih (r := r.put e.path none) ha' (fun x hx => ?_) (fun x hx p hp hne => ?_)
        · have hend : (fun p => if (entryAt? gone p).isSome then none else r.put e.path none p) =
              fun p => if (entryAt? (gone ++ [e]) p).isSome then none else r p := by
            funext p
            rw [entryAt?_append, entryAt?_cons, Recorded.put]
            by_cases hp : e.path = p <;> simp [hp]
          rwa [hend] at hrest
        · rw [r.put_of_ne none (comparePaths_ne_of_lt (hlast x hx)).symm]
          exact hr x (by simp [hx])
        · have hpe : e.path ≠ p := fun he => hne (by rw [← he, r.put_self])
          rw [r.put_of_ne none hpe] at hne
          obtain ⟨y, hy, hyp⟩ := hb x (by simp [hx]) p hp hne
          rcases List.mem_append.mp hy with hy | hy
          · exact ⟨y, hy, hyp⟩
          · exact absurd (by rw [← hyp, List.mem_singleton.mp hy]) hpe

/-! ## Additions and changes -/

theorem DirectlyBelow.below {dir path : String} (h : DirectlyBelow dir path) : Below dir path := by
  obtain ⟨name, -, rfl⟩ := h
  exact ⟨name, rfl⟩

theorem PatchOp.leaves?_addition {entries : List Entry} (ht : IsTree entries) {e : Entry}
    (he : e ∈ entries) : (addition e).leaves? = some e := by
  unfold addition
  cases hk : e.kind with
  | file => rfl
  | directory => exact congrArg some (ht.eq_dir he hk).symm

theorem PatchOp.valid_addition {r : Recorded} {e : Entry} (h : r.Addable e.path) :
    (addition e).Valid r := by
  unfold addition
  cases e.kind <;> exact h

/-- The entry of the old listing that stays until additions begin. -/
def kept? (olds : List Entry) (new : Entry) : Option Entry :=
  (entryAt? olds new.path).filter (·.kind = new.kind)

/-- The steps of one new entry record it, whatever stood at its path. -/
theorem replays_arrival {olds news : List Entry} (ho : IsTree olds) (hn : IsTree news)
    {new : Entry} (hm : new ∈ news) {r : Recorded} (hr : r new.path = kept? olds new)
    (hd : ∀ dir, DirectlyBelow dir new.path → r.Holds dir .directory) :
    Replays r (Patch.arrival? olds new).toList (r.put new.path (some new)) := by
  have hadd : r new.path = none →
      Replays r [PatchOp.addition new] (r.put new.path (some new)) := fun hnone => by
    refine .step (PatchOp.valid_addition ⟨hnone, hd⟩) ?_
    rw [PatchOp.carry, PatchOp.path_addition, PatchOp.leaves?_addition hn hm]
    exact .done _
  rw [kept?] at hr
  cases hold : entryAt? olds new.path with
  | none =>
      simp only [Patch.arrival?, hold]
      exact hadd (by rw [hr, hold]; rfl)
  | some old =>
      simp only [Patch.arrival?, hold]
      by_cases hk : old.kind = new.kind
      · have hrold : r new.path = some old := by simp [hr, hold, hk]
        by_cases hc : old.kind = .file ∧ old.token ≠ new.token
        · rw [if_neg (not_not_intro hk), if_pos hc]
          exact .step ⟨old, hrold, hc.1⟩ (.done _)
        · rw [if_neg (not_not_intro hk), if_neg hc]
          have htoken : old.kind = .file → old.token = new.token := fun hfile => by
            by_contra hne
            exact hc ⟨hfile, hne⟩
          obtain rfl : old = new :=
            ho.eq_of_same hn (entryAt?_mem hold) hm (entryAt?_path hold) hk htoken
          rw [Recorded.put_of_eq hrold]
          exact .done r
      · rw [if_pos hk]
        exact hadd (by simp [hr, hold, hk])

/-- Every directory that one of the entries needs is there or is to be added as well. -/
def Covered (r : Recorded) (todo : List Entry) : Prop :=
  ∀ e ∈ todo, ∀ dir, Below dir e.path →
    r.Holds dir .directory ∨ ∃ d ∈ todo, d.path = dir ∧ d.kind = .directory

/-- A directory above the first entry comes before all that is left. -/
theorem Covered.holds {r : Recorded} {e : Entry} {todo : List Entry} (h : Covered r (e :: todo))
    (ha : Ascending (e :: todo)) {dir : String} (hb : Below dir e.path) :
    r.Holds dir .directory := by
  rcases h e List.mem_cons_self dir hb with hr | ⟨d, hm, rfl, -⟩
  · exact hr
  · rcases List.mem_cons.mp hm with rfl | hm
    · exact absurd rfl hb.ne
    · have := Std.TransCmp.lt_trans hb.lt (List.rel_of_pairwise_cons ha hm)
      simp at this

/-- What is left stays covered when the first entry is added. -/
theorem Covered.put {news : List Entry} (hn : IsTree news) (hna : Ascending news) {r : Recorded}
    {e : Entry} {todo : List Entry} (hsub : e :: todo ⊆ news) (h : Covered r (e :: todo)) :
    Covered (r.put e.path (some e)) todo := by
  intro x hx dir hb
  have hm := List.mem_cons_of_mem e hx
  by_cases hp : e.path = dir
  · obtain ⟨d, hdm, hdp, hdk⟩ := hn.directory_of_below (hsub hm) hb
    obtain rfl := hna.eq_of_path (hsub List.mem_cons_self) hdm (hp.trans hdp.symm)
    exact .inl ⟨e, if_pos hp, hdk⟩
  · rcases h x hm dir hb with ⟨d, hrd, hdk⟩ | ⟨d, hd, hdp, hdk⟩
    · exact .inl ⟨d, by rwa [r.put_of_ne _ hp], hdk⟩
    · rcases List.mem_cons.mp hd with rfl | hd
      · exact absurd hdp hp
      · exact .inr ⟨d, hd, hdp, hdk⟩

/-- New entries can be added in ascending order when they are covered. -/
theorem replays_arrivals {olds news : List Entry} (ho : IsTree olds) (hn : IsTree news)
    (hna : Ascending news) {r : Recorded} {todo : List Entry} (ha : Ascending todo)
    (hsub : todo ⊆ news) (hr : ∀ e ∈ todo, r e.path = kept? olds e) (hd : Covered r todo) :
    Replays r (todo.filterMap (Patch.arrival? olds)) (fun p => (entryAt? todo p).or (r p)) := by
  induction todo generalizing r with
  | nil => exact .done r
  | cons e todo ih =>
      have hrest := ih ha.of_cons (fun x hx => hsub (List.mem_cons_of_mem _ hx)) (fun x hx => ?_)
        (hd.put hn hna hsub)
      · have hend : (fun p => (entryAt? todo p).or (r.put e.path (some e) p)) =
            fun p => (entryAt? (e :: todo) p).or (r p) := by
          funext p
          rw [entryAt?_cons, Recorded.put]
          by_cases hp : e.path = p <;> cases entryAt? todo p <;> simp [hp]
        rw [hend] at hrest
        have hhead := replays_arrival ho hn (hsub List.mem_cons_self) (hr e List.mem_cons_self)
          fun dir hdir => hd.holds ha hdir.below
        have := hhead.append hrest
        rw [List.filterMap_cons]
        cases hop : Patch.arrival? olds e <;> simpa [hop] using this
      · rw [r.put_of_ne _ (comparePaths_ne_of_lt (List.rel_of_pairwise_cons ha hx))]
        exact hr x (List.mem_cons_of_mem _ hx)

/-! ## Whole patches -/

/-- What a directory of both trees holds stays when the directory does, so with a path everything
below it is removed. -/
theorem isGone_of_below {olds news : List Entry} (hoa : Ascending olds) (hna : Ascending news)
    (ho : IsTree olds) (hn : IsTree news) {old x : Entry} (hm : old ∈ olds) (hx : x ∈ olds)
    (hb : Below old.path x.path) (hg : Patch.isGone news old = true) :
    Patch.isGone news x = true := by
  obtain ⟨d, hd, hdp, hdk⟩ := ho.directory_of_below hx hb
  obtain rfl := hoa.eq_of_path hd hm hdp
  rw [Patch.isGone]
  cases hnew : entryAt? news x.path with
  | none => rfl
  | some new =>
      obtain ⟨d', hd', hdp', hdk'⟩ :=
        hn.directory_of_below (entryAt?_mem hnew) (entryAt?_path hnew ▸ hb)
      have hat : entryAt? news d.path = some d' := hna.entryAt?_eq_some_iff.mpr ⟨hd', hdp'⟩
      simp [Patch.isGone, hat, hdk, hdk'] at hg

/-- What is recorded after the removals of a patch. -/
def staying (olds news : List Entry) : Recorded :=
  fun path => (entryAt? olds path).filter (!Patch.isGone news ·)

section

variable {olds news : List Entry} (hoa : Ascending olds) (hna : Ascending news)

include hoa hna in
/-- The removals of a patch leave what stays. -/
theorem replays_gone (ho : IsTree olds) (hn : IsTree news) :
    Replays (entryAt? olds) ((olds.filter (Patch.isGone news)).map .removal).reverse
      (staying olds news) := by
  have hleft : (fun p => if (entryAt? (olds.filter (Patch.isGone news)) p).isSome then none
      else entryAt? olds p) = staying olds news := by
    funext p
    rw [hoa.entryAt?_filter, staying]
    cases entryAt? olds p with
    | none => rfl
    | some old => cases hg : Patch.isGone news old <;> simp [Option.filter, hg]
  rw [← hleft]
  refine replays_removals (hoa.sublist List.filter_sublist) (fun e he => ?_)
    (fun e he p hp hne => ?_)
  · exact hoa.entryAt?_eq_some_iff.mpr ⟨(List.mem_filter.mp he).1, rfl⟩
  · obtain ⟨hem, heg⟩ := List.mem_filter.mp he
    obtain ⟨x, hx⟩ := Option.ne_none_iff_exists'.mp hne
    obtain rfl := entryAt?_path hx
    have hxm := entryAt?_mem hx
    exact ⟨x, List.mem_filter.mpr ⟨hxm, isGone_of_below hoa hna ho hn hem hxm hp heg⟩, rfl⟩

include hna in
/-- What stays at the path of a new entry is what its steps expect there. -/
theorem staying_eq_kept? {e : Entry} (he : e ∈ news) : staying olds news e.path = kept? olds e := by
  rw [staying, kept?]
  cases hold : entryAt? olds e.path with
  | none => rfl
  | some old =>
      have hat : entryAt? news old.path = some e :=
        hna.entryAt?_eq_some_iff.mpr ⟨he, (entryAt?_path hold).symm⟩
      simp [Option.filter, Patch.isGone, hat]

/-- Nothing stays at a path without a new entry. -/
theorem staying_eq_none {path : String} (h : entryAt? news path = none) :
    staying olds news path = none := by
  rw [staying]
  cases hold : entryAt? olds path with
  | none => rfl
  | some old =>
      rw [← entryAt?_path hold] at h
      simp [Option.filter, Patch.isGone, h]

include hoa hna in
/-- The patch between two trees leads from one exactly to the other. -/
theorem replays_between (ho : IsTree olds) (hn : IsTree news) :
    Replays (entryAt? olds) (Patch.between olds news) (entryAt? news) := by
  rw [Patch.between_eq hoa hna]
  have hcame : Replays (staying olds news) (news.filterMap (Patch.arrival? olds))
      (fun p => (entryAt? news p).or (staying olds news p)) :=
    replays_arrivals ho hn hna hna (List.Subset.refl news) (fun _ he => staying_eq_kept? hna he)
      (fun _ he _ hb => .inr (hn.directory_of_below he hb))
  have hend : (fun p => (entryAt? news p).or (staying olds news p)) = entryAt? news := by
    funext p
    cases hnew : entryAt? news p with
    | some new => rfl
    | none => exact staying_eq_none hnew
  exact (replays_gone hoa hna ho hn).append (hend ▸ hcame)

end

/-! ## Histories -/

/-- The patches of successive listings. -/
def Snapshot.patches (s : Snapshot) : List (List Entry) → List Patch
  | [] => []
  | next :: rest => (s.diff next).1 :: (s.diff next).2.patches rest

theorem Snapshot.replays_patches {s : Snapshot} (hs : Ascending s.entries) (ht : IsTree s.entries)
    {listings : List (List Entry)} (h : ∀ l ∈ listings, IsTree (normalize l)) (n : Nat)
    (hn : n < listings.length) :
    Replays (entryAt? s.entries) ((s.patches listings).take (n + 1)).flatten
      (entryAt? (normalize listings[n])) := by
  induction listings generalizing s n with
  | nil => exact absurd hn (Nat.not_lt_zero n)
  | cons next rest ih =>
      have hnext := normalize_ascending next
      have htree := h next List.mem_cons_self
      have hfirst : Replays (entryAt? s.entries) (s.diff next).1 (entryAt? (normalize next)) :=
        replays_between hs hnext ht htree
      cases n with
      | zero => simpa [patches] using hfirst
      | succ n =>
          have := ih (s := (s.diff next).2) hnext htree
            (fun l hl => h l (List.mem_cons_of_mem _ hl)) n (by simpa using hn)
          simpa [patches] using hfirst.append this

/-- Beginning with nothing, the patches of any listings that are trees replay step by step and
arrive, after each listing, at exactly its normal form. -/
theorem patches_replay_exactly (listings : List (List Entry))
    (h : ∀ l ∈ listings, IsTree (normalize l)) (n : Nat) (hn : n < listings.length) :
    Replays (fun _ => none) ((Snapshot.empty.patches listings).take (n + 1)).flatten
      (entryAt? (normalize listings[n])) :=
  Snapshot.replays_patches .nil ⟨nofun, nofun⟩ h n hn

/-- A directory with a file in it that becomes a file and a directory again. -/
def flips : List (List Entry) :=
  [[.dir "a", .file "a/b" (.content "x")], [.file "a" (.content "y")],
    [.dir "a", .dir "a/b", .file "a/b/c" (.content "x")]]

theorem patches_replay_exactly_flips :
    (∀ l ∈ flips, IsTree (normalize l)) ∧ Replays (fun _ => none)
      ((Snapshot.empty.patches flips).take 3).flatten (entryAt? (normalize flips[2])) := by
  have htrees : ∀ l ∈ flips, IsTree (normalize l) := fun l hl => by
    have hall : ∀ l ∈ flips, Ascending l ∧ IsTree l := by decide +kernel
    obtain ⟨ha, ht⟩ := hall l hl
    rwa [normalize_of_ascending ha]
  exact ⟨htrees, patches_replay_exactly flips htrees 2 (by decide)⟩

end VendorBundle
