import VendorBundle.Proofs.Tree.Normal
import VendorBundle.Tree.Patch

/-!
# What a patch consists of

The walk along two ascending listings compares each path with its entry in the other listing: a
path is removed when it is gone or changes its kind, and added or changed when it is new or
different.
-/

namespace VendorBundle

open Entry

theorem PatchOp.path_removal (e : Entry) : (removal e).path = e.path := by
  unfold removal
  cases e.kind <;> rfl

theorem PatchOp.path_addition (e : Entry) : (addition e).path = e.path := by
  unfold addition
  cases e.kind <;> rfl

namespace Patch

/-! ## Path by path -/

/-- The new listing does not hold the path of an old entry with the same kind. -/
def isGone (news : List Entry) (old : Entry) : Bool :=
  match entryAt? news old.path with
  | some new => old.kind ≠ new.kind
  | none => true

/-- How a new entry gets into a tree that agrees with the old listing. -/
def arrival? (olds : List Entry) (new : Entry) : Option PatchOp :=
  match entryAt? olds new.path with
  | some old =>
      if old.kind ≠ new.kind then some (.addition new)
      else if old.kind = .file ∧ old.token ≠ new.token then some (.change new.path new)
      else none
  | none => some (.addition new)

theorem isGone_iff {news : List Entry} {e : Entry} :
    isGone news e = true ↔ kindAt? news e.path ≠ some e.kind := by
  rw [isGone, kindAt?]
  cases entryAt? news e.path with
  | none => simp
  | some new => simpa using ne_comm

theorem entryAt?_cons_of_ne {e : Entry} {entries : List Entry} {path : String}
    (h : e.path ≠ path) : entryAt? (e :: entries) path = entryAt? entries path := by
  simp [entryAt?_cons, h]

theorem entryAt?_cons_of_forall_ne {e : Entry} {entries : List Entry}
    (h : ∀ x ∈ entries, x.path ≠ e.path) : entryAt? (e :: entries) e.path = some e := by
  simp [entryAt?_cons, entryAt?_eq_none_iff.mpr h]

theorem ne_of_mem_of_lt {e x : Entry} {entries : List Entry} (h : Ascending (x :: entries))
    (hlt : comparePaths e.path x.path = .lt) : ∀ y ∈ x :: entries, e.path ≠ y.path := by
  intro y hy
  rcases List.mem_cons.mp hy with rfl | hy
  · exact comparePaths_ne_of_lt hlt
  · exact comparePaths_ne_of_lt (Std.TransCmp.lt_trans hlt (List.rel_of_pairwise_cons h hy))

theorem isGone_of_forall_ne {old : Entry} {news : List Entry}
    (h : ∀ y ∈ news, old.path ≠ y.path) : isGone news old = true := by
  simp [isGone, entryAt?_eq_none_iff.mpr fun y hy => (h y hy).symm]

theorem arrival?_of_forall_ne {new : Entry} {olds : List Entry}
    (h : ∀ y ∈ olds, new.path ≠ y.path) : arrival? olds new = some (.addition new) := by
  simp [arrival?, entryAt?_eq_none_iff.mpr fun y hy => (h y hy).symm]

theorem isGone_cons_of_path {old new : Entry} {news : List Entry} (hp : old.path = new.path)
    (h : ∀ x ∈ news, new.path ≠ x.path) :
    isGone (new :: news) old = decide (old.kind ≠ new.kind) := by
  rw [isGone, hp, entryAt?_cons_of_forall_ne fun x hx => (h x hx).symm]

theorem arrival?_cons_of_path {old new : Entry} {olds : List Entry} (hp : old.path = new.path)
    (h : ∀ x ∈ olds, old.path ≠ x.path) :
    arrival? (old :: olds) new =
      if old.kind ≠ new.kind then some (.addition new)
      else if old.kind = .file ∧ old.token ≠ new.token then some (.change new.path new)
      else none := by
  rw [arrival?, ← hp, entryAt?_cons_of_forall_ne fun x hx => (h x hx).symm]

theorem filter_isGone_cons {new : Entry} {news olds : List Entry}
    (h : ∀ old ∈ olds, new.path ≠ old.path) :
    olds.filter (isGone (new :: news)) = olds.filter (isGone news) :=
  List.filter_congr fun old ho => by simp only [isGone, entryAt?_cons_of_ne (h old ho)]

theorem filterMap_arrival?_cons {old : Entry} {olds news : List Entry}
    (h : ∀ new ∈ news, old.path ≠ new.path) :
    news.filterMap (arrival? (old :: olds)) = news.filterMap (arrival? olds) :=
  List.filterMap_congr fun new hn => by simp only [arrival?, entryAt?_cons_of_ne (h new hn)]

/-! ## The whole walk -/

namespace Steps

/-- The walk finds what looking up each path in the other listing finds. -/
theorem between_eq {olds news : List Entry} (ho : Ascending olds) (hn : Ascending news) :
    between olds news =
      ⟨(olds.filter (isGone news)).map .removal, news.filterMap (arrival? olds)⟩ := by
  fun_induction between olds news with
  | case1 => rfl
  | case2 old olds ih =>
      rw [ih ho.of_cons hn, List.filter_cons_of_pos (isGone_of_forall_ne (by simp))]
      rfl
  | case3 new news ih =>
      rw [ih ho hn.of_cons, List.filterMap_cons_some (arrival?_of_forall_ne (by simp))]
      rfl
  | case4 old olds new news hlt ih =>
      have hne := ne_of_mem_of_lt hn hlt
      rw [ih ho.of_cons hn, filterMap_arrival?_cons hne,
        List.filter_cons_of_pos (isGone_of_forall_ne hne)]
      rfl
  | case5 old olds new news hgt ih =>
      have hne := ne_of_mem_of_lt ho (Std.OrientedCmp.gt_iff_lt.mp hgt)
      rw [ih ho hn.of_cons, filter_isGone_cons hne,
        List.filterMap_cons_some (arrival?_of_forall_ne hne)]
      rfl
  | case6 old olds new news heq ih =>
      have hp := Std.LawfulEqCmp.eq_of_compare heq
      have hold : ∀ x ∈ olds, old.path ≠ x.path := fun x hx =>
        comparePaths_ne_of_lt (List.rel_of_pairwise_cons ho hx)
      have hnew : ∀ x ∈ news, new.path ≠ x.path := fun x hx =>
        comparePaths_ne_of_lt (List.rel_of_pairwise_cons hn hx)
      rw [ih ho.of_cons hn.of_cons, List.filter_cons, List.filterMap_cons,
        filter_isGone_cons (hp ▸ hold), filterMap_arrival?_cons (hp ▸ hnew),
        isGone_cons_of_path hp hnew, arrival?_cons_of_path hp hold, update]
      by_cases hk : old.kind = new.kind
      · simp only [hk, ne_eq, not_true_eq_false, if_false, decide_false]
        split <;> rfl
      · simp only [hk, ne_eq, not_false_eq_true, if_true, decide_true]
        rfl

end Steps

theorem between_eq {olds news : List Entry} (ho : Ascending olds) (hn : Ascending news) :
    Patch.between olds news =
      ((olds.filter (isGone news)).map .removal).reverse ++ news.filterMap (arrival? olds) := by
  rw [Patch.between, Steps.between_eq ho hn]

/-! ## Looking up in a patch -/

theorem mem_between {olds news : List Entry} (ho : Ascending olds) (hn : Ascending news)
    {op : PatchOp} : op ∈ Patch.between olds news ↔
      (∃ old ∈ olds, isGone news old = true ∧ op = .removal old) ∨
        ∃ new ∈ news, arrival? olds new = some op := by
  rw [between_eq ho hn, List.mem_append, List.mem_reverse, List.mem_map, List.mem_filterMap]
  simp only [List.mem_filter, and_assoc, eq_comm]

/-- An entry is added, or is a file that changes. -/
theorem op_of_arrival? {olds : List Entry} {new : Entry} {op : PatchOp}
    (h : arrival? olds new = some op) :
    op = .addition new ∨ op = .change new.path new ∧ new.kind = .file := by
  rw [arrival?] at h
  split at h
  · split at h
    · exact .inl (Option.some.inj h).symm
    · rename_i hk
      split at h
      · rename_i hc
        exact .inr ⟨(Option.some.inj h).symm, (not_not.mp hk).symm.trans hc.1⟩
      · exact absurd h (by simp)
  · exact .inl (Option.some.inj h).symm

theorem path_of_arrival? {olds : List Entry} {new : Entry} {op : PatchOp}
    (h : arrival? olds new = some op) : op.path = new.path := by
  rcases op_of_arrival? h with rfl | ⟨rfl, -⟩
  · exact PatchOp.path_addition new
  · rfl

/-- Every path of a patch is listed before or after. -/
theorem path_of_mem_between {olds news : List Entry} (ho : Ascending olds) (hn : Ascending news)
    {op : PatchOp} (h : op ∈ Patch.between olds news) :
    (∃ e ∈ olds, e.path = op.path) ∨ ∃ e ∈ news, e.path = op.path := by
  rcases (mem_between ho hn).mp h with ⟨old, hm, -, rfl⟩ | ⟨new, hm, ha⟩
  · exact .inl ⟨old, hm, (PatchOp.path_removal old).symm⟩
  · exact .inr ⟨new, hm, (path_of_arrival? ha).symm⟩

/-- Nothing arrives for an entry exactly when it was there with the same kind and, if it is a file,
the same token. -/
theorem arrival?_eq_none_iff {olds : List Entry} {new : Entry} :
    arrival? olds new = none ↔ ∃ old, entryAt? olds new.path = some old ∧ old.kind = new.kind ∧
      (old.kind = .file → old.token = new.token) := by
  rw [arrival?]
  split
  · rename_i old hold
    by_cases hk : old.kind = new.kind
    · rw [if_neg (not_not_intro hk)]
      by_cases hc : old.kind = .file ∧ old.token ≠ new.token
      · rw [if_pos hc]
        simp only [reduceCtorEq, false_iff, not_exists, not_and]
        rintro x hx - hfile
        obtain rfl := Option.some.inj (hold.symm.trans hx)
        exact hc.2 (hfile hc.1)
      · rw [if_neg hc]
        refine ⟨fun _ => ⟨old, hold, hk, fun hfile => ?_⟩, fun _ => rfl⟩
        by_contra hne
        exact hc ⟨hfile, hne⟩
    · rw [if_pos hk]
      simp only [reduceCtorEq, false_iff, not_exists, not_and]
      rintro x hx hxk
      obtain rfl := Option.some.inj (hold.symm.trans hx)
      exact absurd hxk hk
  · rename_i hnone
    simp [hnone]

/-- A path that a patch is not about is in neither listing, or in both with the same kind and, if
it is a file, the same token. -/
theorem same_of_no_op {olds news : List Entry} (ho : Ascending olds) (hn : Ascending news)
    {path : String} (h : ∀ op ∈ Patch.between olds news, op.path ≠ path) :
    (entryAt? olds path = none ∧ entryAt? news path = none) ∨
      ∃ old new, entryAt? olds path = some old ∧ entryAt? news path = some new ∧
        old.kind = new.kind ∧ (old.kind = .file → old.token = new.token) := by
  cases hnew : entryAt? news path with
  | some new =>
      have hp := entryAt?_path hnew
      have hnone : arrival? olds new = none := by
        cases ha : arrival? olds new with
        | none => rfl
        | some op =>
            have hm := (mem_between ho hn).mpr (.inr ⟨new, entryAt?_mem hnew, ha⟩)
            exact absurd ((path_of_arrival? ha).trans hp) (h op hm)
      obtain ⟨old, hold, hk, ht⟩ := arrival?_eq_none_iff.mp hnone
      exact .inr ⟨old, new, hp ▸ hold, rfl, hk, ht⟩
  | none =>
      cases hold : entryAt? olds path with
      | none => exact .inl ⟨rfl, rfl⟩
      | some old =>
          have hp := entryAt?_path hold
          have hm := (mem_between ho hn).mpr
            (.inl ⟨old, entryAt?_mem hold, by simp [isGone, hp, hnew], rfl⟩)
          exact absurd ((PatchOp.path_removal old).trans hp) (h _ hm)

section

variable {olds news : List Entry} (ho : Ascending olds) (hn : Ascending news) {path : String}
  (h : ∀ op ∈ Patch.between olds news, op.path ≠ path)

include ho hn h

theorem kindAt?_of_no_op : kindAt? olds path = kindAt? news path := by
  rcases same_of_no_op ho hn h with ⟨hold, hnew⟩ | ⟨old, new, hold, hnew, hk, -⟩
  · rw [kindAt?, kindAt?, hold, hnew]
  · rw [kindAt?, kindAt?, hold, hnew, Option.map_some, Option.map_some, hk]

theorem token_of_no_op {old new : Entry} (hold : entryAt? olds path = some old)
    (hnew : entryAt? news path = some new) (hf : old.kind = .file) : old.token = new.token := by
  rcases same_of_no_op ho hn h with ⟨hnone, -⟩ | ⟨old', new', hold', hnew', -, ht⟩
  · cases hold.symm.trans hnone
  · obtain rfl := Option.some.inj (hold.symm.trans hold')
    obtain rfl := Option.some.inj (hnew.symm.trans hnew')
    exact ht hf

end

/-- A change is only about a path that is listed differently. -/
theorem entryAt?_ne_of_mem {olds news : List Entry} (ho : Ascending olds) (hn : Ascending news)
    {op : PatchOp} (hop : op ∈ Patch.between olds news) :
    entryAt? olds op.path ≠ entryAt? news op.path := by
  intro heq
  rcases (mem_between ho hn).mp hop with ⟨old, hm, hgone, rfl⟩ | ⟨new, hm, ha⟩
  · rw [PatchOp.path_removal, ho.entryAt?_eq_some_iff.mpr ⟨hm, rfl⟩] at heq
    simp [isGone, ← heq] at hgone
  · rw [path_of_arrival? ha, hn.entryAt?_eq_some_iff.mpr ⟨hm, rfl⟩] at heq
    rw [arrival?_eq_none_iff.mpr ⟨new, heq, rfl, fun _ => rfl⟩] at ha
    cases ha

/-- Nothing leads from a listing to itself. -/
theorem between_self {entries : List Entry} (ha : Ascending entries) :
    Patch.between entries entries = [] := by
  rw [List.eq_nil_iff_forall_not_mem]
  exact fun op hop => entryAt?_ne_of_mem ha ha hop rfl

end Patch

end VendorBundle
