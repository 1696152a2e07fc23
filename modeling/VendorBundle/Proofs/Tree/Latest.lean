import VendorBundle.Proofs.Tree.Normal

/-!
# The last entry of each path

A list of entries says of each path what its last entry with that path says. The normalized listing
is the one ascending listing of these entries, so it can be told without sorting, and a list that
follows another one is laid over it.
-/

namespace VendorBundle.Entry

/-! ## Last entries -/

/-- The entry stands in the list, and none behind it has its path. -/
def LastIn (entries : List Entry) (e : Entry) : Prop :=
  ∃ front later, entries = front ++ e :: later ∧ ∀ x ∈ later, x.path ≠ e.path

variable {entries xs ys : List Entry} {e : Entry}

theorem lastIn_iff : LastIn entries e ↔ entryAt? entries e.path = some e := by
  constructor
  · rintro ⟨front, later, rfl, hlater⟩
    rw [entryAt?_append, entryAt?_cons, entryAt?_eq_none_iff.mpr hlater, if_pos rfl]
    rfl
  · intro h
    obtain ⟨-, later, front, hsplit, hlater⟩ := List.find?_eq_some_iff_append.mp h
    refine ⟨front.reverse, later.reverse, ?_, fun x hx => ?_⟩
    · rw [← List.reverse_reverse entries, hsplit]
      simp
    · simpa using hlater x (List.mem_reverse.mp hx)

theorem mem_normalize_iff_lastIn : e ∈ normalize entries ↔ LastIn entries e :=
  mem_normalize.trans lastIn_iff.symm

theorem lastIn_append :
    LastIn (xs ++ ys) e ↔ LastIn ys e ∨ LastIn xs e ∧ ∀ y ∈ ys, y.path ≠ e.path := by
  rw [lastIn_iff, lastIn_iff, lastIn_iff, entryAt?_append, Option.or_eq_some_iff,
    entryAt?_eq_none_iff, and_comm (a := entryAt? xs e.path = some e)]

/-- Where no two entries have one path, each is the last. -/
theorem lastIn_iff_mem_of_nodup (h : (entries.map path).Nodup) : LastIn entries e ↔ e ∈ entries := by
  constructor
  · rintro ⟨front, later, rfl, -⟩
    exact List.mem_append_right _ List.mem_cons_self
  · intro he
    obtain ⟨front, later, rfl⟩ := List.append_of_mem he
    refine ⟨front, later, rfl, fun x hx hp => ?_⟩
    rw [List.map_append, List.map_cons, List.nodup_append] at h
    exact (List.nodup_cons.mp h.2.1).1 (hp ▸ List.mem_map_of_mem hx)

/-! ## The one ascending listing -/

theorem eq_normalize_iff {sorted : List Entry} :
    sorted = normalize entries ↔ Ascending sorted ∧ ∀ e, e ∈ sorted ↔ LastIn entries e := by
  constructor
  · rintro rfl
    exact ⟨normalize_ascending entries, fun e => mem_normalize_iff_lastIn⟩
  · rintro ⟨hsorted, hmem⟩
    refine hsorted.ext (normalize_ascending entries) fun path => Option.ext fun e => ?_
    rw [hsorted.entryAt?_eq_some_iff, (normalize_ascending entries).entryAt?_eq_some_iff, hmem,
      mem_normalize_iff_lastIn]

theorem exists_path_iff {path : String} :
    (∃ e ∈ entries, e.path = path) ↔ entryAt? entries path ≠ none := by
  rw [Ne, entryAt?_eq_none_iff]
  simp

theorem exists_path_normalize_iff {path : String} :
    (∃ e ∈ normalize entries, e.path = path) ↔ ∃ e ∈ entries, e.path = path := by
  rw [exists_path_iff, exists_path_iff, entryAt?_normalize]

theorem normalize_normalize (entries : List Entry) :
    normalize (normalize entries) = normalize entries :=
  normalize_of_ascending (normalize_ascending entries)

theorem normalize_perm {other : List Entry} (h : other.Perm entries)
    (hn : (entries.map path).Nodup) : normalize other = normalize entries := by
  have hno : (other.map path).Nodup := (h.map path).nodup_iff.mpr hn
  refine eq_normalize_iff.mpr ⟨normalize_ascending other, fun e => ?_⟩
  rw [mem_normalize_iff_lastIn, lastIn_iff_mem_of_nodup hno, lastIn_iff_mem_of_nodup hn, h.mem_iff]

/-! ## One listing over another -/

/-- An ascending listing laid over another one, which keeps what it has at other paths. -/
def laidOn (upper lower : List Entry) : List Entry :=
  (lower.filter fun e => upper.all (·.path ≠ e.path)).merge upper
    fun a b => (comparePaths a.path b.path).isLE

theorem mem_laidOn {upper lower : List Entry} :
    e ∈ laidOn upper lower ↔ e ∈ upper ∨ e ∈ lower ∧ ∀ x ∈ upper, x.path ≠ e.path := by
  rw [laidOn, List.mem_merge, List.mem_filter, or_comm]
  simp

theorem laidOn_ascending {upper lower : List Entry} (hu : Ascending upper) (hl : Ascending lower) :
    Ascending (laidOn upper lower) := by
  have hle : ∀ {l : List Entry}, Ascending l →
      l.Pairwise fun a b => (comparePaths a.path b.path).isLE :=
    fun h => h.imp fun hab => by simp [hab]
  have hkept : Ascending (lower.filter fun e => upper.all (·.path ≠ e.path)) :=
    hl.sublist List.filter_sublist
  have hsorted := List.pairwise_merge isLE_trans_path isLE_total_path _ _ (hle hkept) (hle hu)
  have hdiffer : (laidOn upper lower).Pairwise fun a b => a.path ≠ b.path := by
    refine ((List.merge_perm_append _).pairwise_iff fun hab => Ne.symm hab).mpr ?_
    refine List.pairwise_append.mpr ⟨hkept.imp comparePaths_ne_of_lt, hu.imp comparePaths_ne_of_lt,
      fun a ha b hb hp => ?_⟩
    have hfree := (List.mem_filter.mp ha).2
    simp only [List.all_eq_true, decide_eq_true_eq] at hfree
    exact hfree b hb hp.symm
  refine (hsorted.and hdiffer).imp fun {a b} hab => ?_
  cases hc : comparePaths a.path b.path with
  | lt => rfl
  | eq => exact absurd (Std.LawfulEqCmp.eq_of_compare hc) hab.2
  | gt => simp [hc] at hab

theorem normalize_append (xs ys : List Entry) :
    normalize (xs ++ ys) = laidOn (normalize ys) (normalize xs) := by
  refine (eq_normalize_iff.mpr
    ⟨laidOn_ascending (normalize_ascending ys) (normalize_ascending xs), fun e => ?_⟩).symm
  have hfree : (∀ x ∈ normalize ys, x.path ≠ e.path) ↔ ∀ y ∈ ys, y.path ≠ e.path := by
    rw [← entryAt?_eq_none_iff, entryAt?_normalize, entryAt?_eq_none_iff]
  rw [mem_laidOn, mem_normalize_iff_lastIn, mem_normalize_iff_lastIn, hfree, lastIn_append]

/-- The normalized listing is the only ascending one that holds, for each path that is listed, the
last entry with that path. So normalizing twice is normalizing once, entries that follow others are
laid over them, and the order of entries does not matter where no two of them have one path. -/
theorem normalize_last_wins (entries xs ys : List Entry) :
    (∀ sorted, sorted = normalize entries ↔
      Ascending sorted ∧ ∀ e, e ∈ sorted ↔ LastIn entries e) ∧
    (∀ path, (∃ e ∈ normalize entries, e.path = path) ↔ ∃ e ∈ entries, e.path = path) ∧
    normalize (normalize entries) = normalize entries ∧
    normalize (xs ++ ys) = laidOn (normalize ys) (normalize xs) ∧
    ∀ other, other.Perm entries → (entries.map path).Nodup → normalize other = normalize entries :=
  ⟨fun _ => eq_normalize_iff, fun _ => exists_path_normalize_iff, normalize_normalize entries,
    normalize_append xs ys, fun _ => normalize_perm⟩

end VendorBundle.Entry
