import Mathlib.Data.List.Nodup
import VendorBundle.Proofs.Tree.Order

/-!
# Normal listings

A normalized listing is strictly ascending and holds, for each path, the last entry that the given
listing has for it. Sorting is stable, so it does not matter where the entries stood.
-/

namespace VendorBundle.Entry

/-- The last entry with a path. -/
def entryAt? (entries : List Entry) (path : String) : Option Entry :=
  entries.reverse.find? (·.path = path)

/-- The entries stand in strictly ascending order of their paths. -/
def Ascending (entries : List Entry) : Prop :=
  entries.Pairwise fun a b => comparePaths a.path b.path = .lt

instance (entries : List Entry) : Decidable (Ascending entries) :=
  inferInstanceAs (Decidable (entries.Pairwise _))

/-! ## Looking up -/

@[simp] theorem entryAt?_nil (path : String) : entryAt? [] path = none := rfl

theorem entryAt?_cons (e : Entry) (entries : List Entry) (path : String) :
    entryAt? (e :: entries) path =
      (entryAt? entries path).or (if e.path = path then some e else none) := by
  by_cases h : e.path = path <;> simp [entryAt?, List.find?_append, h]

theorem entryAt?_eq_getLast? (entries : List Entry) (path : String) :
    entryAt? entries path = (entries.filter (·.path = path)).getLast? := by
  rw [entryAt?, List.getLast?_filter]

theorem entryAt?_path {entries : List Entry} {path : String} {e : Entry}
    (h : entryAt? entries path = some e) : e.path = path := by
  simpa using List.find?_some h

theorem entryAt?_mem {entries : List Entry} {path : String} {e : Entry}
    (h : entryAt? entries path = some e) : e ∈ entries :=
  List.mem_reverse.mp (List.mem_of_find?_eq_some h)

theorem entryAt?_eq_none_iff {entries : List Entry} {path : String} :
    entryAt? entries path = none ↔ ∀ e ∈ entries, e.path ≠ path := by
  simp [entryAt?]

theorem exists_entryAt?_of_mem {entries : List Entry} {e : Entry} (h : e ∈ entries) :
    ∃ x, entryAt? entries e.path = some x := by
  cases hx : entryAt? entries e.path with
  | none => exact absurd rfl (entryAt?_eq_none_iff.mp hx e h)
  | some x => exact ⟨x, rfl⟩

theorem entryAt?_append (front rest : List Entry) (path : String) :
    entryAt? (front ++ rest) path = (entryAt? rest path).or (entryAt? front path) := by
  simp [entryAt?, List.find?_append]

/-! ## Ascending listings -/

theorem Ascending.eq_of_path {entries : List Entry} (h : Ascending entries) {a b : Entry}
    (ha : a ∈ entries) (hb : b ∈ entries) (hp : a.path = b.path) : a = b := by
  have hnodup : (entries.map path).Nodup := List.pairwise_map.mpr (h.imp comparePaths_ne_of_lt)
  exact List.inj_on_of_nodup_map hnodup ha hb hp

theorem Ascending.nodup {entries : List Entry} (h : Ascending entries) : entries.Nodup :=
  List.Pairwise.imp (fun hab he => comparePaths_ne_of_lt hab (congrArg path he)) h

theorem Ascending.entryAt?_eq_some_iff {entries : List Entry} (h : Ascending entries)
    {path : String} {e : Entry} : entryAt? entries path = some e ↔ e ∈ entries ∧ e.path = path := by
  constructor
  · exact fun he => ⟨entryAt?_mem he, entryAt?_path he⟩
  · rintro ⟨hm, rfl⟩
    obtain ⟨x, hx⟩ := exists_entryAt?_of_mem hm
    rw [hx, h.eq_of_path (entryAt?_mem hx) hm (entryAt?_path hx)]

theorem Ascending.entryAt?_filter {entries : List Entry} (h : Ascending entries)
    (keep : Entry → Bool) (path : String) :
    entryAt? (entries.filter keep) path = (entryAt? entries path).filter keep := by
  apply Option.ext
  intro e
  have hf : Ascending (entries.filter keep) := h.sublist List.filter_sublist
  rw [Option.filter_eq_some_iff, hf.entryAt?_eq_some_iff, h.entryAt?_eq_some_iff, List.mem_filter]
  exact and_right_comm

/-! ## Of neighbours with one path, the last -/

theorem keepLast_sublist (entries : List Entry) : (keepLast entries).Sublist entries := by
  fun_induction keepLast entries with
  | case1 => exact .slnil
  | case2 e => exact .refl _
  | case3 a b rest h ih => exact ih.cons a
  | case4 a b rest h ih => exact ih.cons_cons a

theorem entryAt?_keepLast (entries : List Entry) (path : String) :
    entryAt? (keepLast entries) path = entryAt? entries path := by
  fun_induction keepLast entries with
  | case1 => rfl
  | case2 e => rfl
  | case3 a b rest h ih =>
      rw [ih, entryAt?_cons a, entryAt?_cons b]
      by_cases hb : b.path = path <;> simp [h, hb]
  | case4 a b rest h ih => rw [entryAt?_cons, ih, entryAt?_cons a]

theorem keepLast_ascending {entries : List Entry}
    (h : entries.Pairwise fun a b => (comparePaths a.path b.path).isLE) :
    Ascending (keepLast entries) := by
  fun_induction keepLast entries with
  | case1 => exact .nil
  | case2 e => exact List.pairwise_singleton _ _
  | case3 a b rest hab ih => exact ih h.of_cons
  | case4 a b rest hab ih =>
      have hlt : comparePaths a.path b.path = .lt := by
        have hle := List.rel_of_pairwise_cons h List.mem_cons_self
        cases hc : comparePaths a.path b.path with
        | lt => rfl
        | eq => exact absurd (Std.LawfulEqCmp.eq_of_compare hc) hab
        | gt => simp [hc] at hle
      refine List.pairwise_cons.mpr ⟨fun x hx => ?_, ih h.of_cons⟩
      rcases List.mem_cons.mp ((keepLast_sublist _).subset hx) with rfl | hx
      · exact hlt
      · exact Std.TransCmp.lt_of_lt_of_isLE hlt (List.rel_of_pairwise_cons h.of_cons hx)

theorem keepLast_of_ascending {entries : List Entry} (h : Ascending entries) :
    keepLast entries = entries := by
  fun_induction keepLast entries with
  | case1 => rfl
  | case2 e => rfl
  | case3 a b rest hab ih =>
      exact absurd hab (comparePaths_ne_of_lt (List.rel_of_pairwise_cons h List.mem_cons_self))
  | case4 a b rest hab ih => rw [ih h.of_cons]

/-! ## Normalizing -/

theorem isLE_trans_path (a b c : Entry) (hab : (comparePaths a.path b.path).isLE)
    (hbc : (comparePaths b.path c.path).isLE) : (comparePaths a.path c.path).isLE :=
  Std.TransCmp.isLE_trans hab hbc

theorem isLE_total_path (a b : Entry) :
    (comparePaths a.path b.path).isLE || (comparePaths b.path a.path).isLE := by
  rw [@Std.OrientedCmp.eq_swap _ comparePaths _ b.path a.path]
  cases comparePaths a.path b.path <;> rfl

theorem filter_path_mergeSort (entries : List Entry) (path : String) :
    (entries.mergeSort fun a b => (comparePaths a.path b.path).isLE).filter (·.path = path) =
      entries.filter (·.path = path) := by
  have hpair : (entries.filter (·.path = path)).Pairwise
      fun a b => (comparePaths a.path b.path).isLE := by
    refine List.pairwise_of_forall_mem_list fun a ha b hb => ?_
    have ha := (List.mem_filter.mp ha).2
    have hb := (List.mem_filter.mp hb).2
    simp only [decide_eq_true_eq] at ha hb
    simp [ha, hb]
  have hsub := (List.sublist_mergeSort isLE_trans_path isLE_total_path hpair
    List.filter_sublist).filter (·.path = path)
  rw [List.filter_filter, List.filter_congr (fun x _ => Bool.and_self _)] at hsub
  exact (hsub.eq_of_length ((List.mergeSort_perm _ _).filter _).length_eq.symm).symm

theorem entryAt?_normalize (entries : List Entry) (path : String) :
    entryAt? (normalize entries) path = entryAt? entries path := by
  rw [normalize, entryAt?_keepLast, entryAt?_eq_getLast?, filter_path_mergeSort,
    ← entryAt?_eq_getLast?]

theorem normalize_ascending (entries : List Entry) : Ascending (normalize entries) :=
  keepLast_ascending (List.pairwise_mergeSort isLE_trans_path isLE_total_path entries)

theorem normalize_of_ascending {entries : List Entry} (h : Ascending entries) :
    normalize entries = entries := by
  rw [normalize, List.mergeSort_of_pairwise (h.imp fun hab => by simp [hab]),
    keepLast_of_ascending h]

theorem mem_normalize {entries : List Entry} {e : Entry} :
    e ∈ normalize entries ↔ entryAt? entries e.path = some e := by
  rw [← entryAt?_normalize, (normalize_ascending entries).entryAt?_eq_some_iff]
  simp

/-- Ascending listings that answer alike are equal. -/
theorem Ascending.ext {a b : List Entry} (ha : Ascending a) (hb : Ascending b)
    (h : ∀ path, entryAt? a path = entryAt? b path) : a = b := by
  have hmem : ∀ e, e ∈ a ↔ e ∈ b := fun e => by
    have hea : entryAt? a e.path = some e ↔ e ∈ a := by
      rw [ha.entryAt?_eq_some_iff, and_iff_left rfl]
    have heb : entryAt? b e.path = some e ↔ e ∈ b := by
      rw [hb.entryAt?_eq_some_iff, and_iff_left rfl]
    rw [← hea, ← heb, h]
  refine List.Perm.eq_of_pairwise (fun x y _ _ hxy hyx => ?_) ha hb
    ((List.perm_ext_iff_of_nodup ha.nodup hb.nodup).mpr hmem)
  exact absurd (Std.OrientedCmp.gt_of_lt hxy) (by simp [hyx])

/-- A listing needs no sorting to be told normalized. -/
theorem normalize_eq {entries sorted : List Entry} (ha : Ascending sorted)
    (h : ∀ e ∈ entries ++ sorted, entryAt? entries e.path = entryAt? sorted e.path) :
    normalize entries = sorted := by
  refine (normalize_ascending entries).ext ha fun path => ?_
  rw [entryAt?_normalize]
  by_cases hp : ∃ e ∈ entries ++ sorted, e.path = path
  · obtain ⟨e, he, rfl⟩ := hp
    exact h e he
  · simp only [not_exists, not_and] at hp
    rw [entryAt?_eq_none_iff.mpr fun e he => hp e (List.mem_append_left _ he),
      entryAt?_eq_none_iff.mpr fun e he => hp e (List.mem_append_right _ he)]

/-! ## Kinds -/

/-- The kind of the entry with a path. -/
def kindAt? (entries : List Entry) (path : String) : Option EntryKind :=
  (entryAt? entries path).map (·.kind)

theorem kindAt?_eq_some_iff {entries : List Entry} {path : String} {kind : EntryKind} :
    kindAt? entries path = some kind ↔ ∃ e, entryAt? entries path = some e ∧ e.kind = kind :=
  Option.map_eq_some_iff

theorem kindAt?_eq_none_iff {entries : List Entry} {path : String} :
    kindAt? entries path = none ↔ entryAt? entries path = none := Option.map_eq_none_iff

theorem Ascending.kindAt?_ne_iff {entries : List Entry} (h : Ascending entries) {path : String}
    {kind : EntryKind} :
    kindAt? entries path ≠ some kind ↔ ∀ e ∈ entries, e.path = path → e.kind ≠ kind := by
  rw [Ne, kindAt?_eq_some_iff]
  constructor
  · exact fun hno e he hp hk => hno ⟨e, h.entryAt?_eq_some_iff.mpr ⟨he, hp⟩, hk⟩
  · rintro hall ⟨e, hat, hk⟩
    exact hall e (entryAt?_mem hat) (entryAt?_path hat) hk

/-! ## Listings of one shape -/

/-- The entry without what tells its contents. -/
def bare (e : Entry) : Entry := { e with token := .directory }

theorem entryAt?_map_bare (entries : List Entry) (path : String) :
    entryAt? (entries.map bare) path = (entryAt? entries path).map bare := by
  rw [entryAt?, entryAt?, ← List.map_reverse, List.find?_map]
  rfl

theorem kindAt?_map_bare (entries : List Entry) (path : String) :
    kindAt? (entries.map bare) path = kindAt? entries path := by
  rw [kindAt?, kindAt?, entryAt?_map_bare, Option.map_map]
  rfl

/-- Ascending listings with the same kinds are the same but for what tells contents. -/
theorem Ascending.map_bare {a b : List Entry} (ha : Ascending a) (hb : Ascending b)
    (h : ∀ path, kindAt? a path = kindAt? b path) : a.map bare = b.map bare := by
  have hascending : ∀ {entries : List Entry}, Ascending entries → Ascending (entries.map bare) :=
    fun he => List.pairwise_map.mpr he
  refine (hascending ha).ext (hascending hb) fun path => ?_
  have hat : ∀ entries : List Entry, entryAt? (entries.map bare) path =
      (kindAt? entries path).map fun kind => ⟨path, kind, .directory⟩ := fun entries => by
    rw [entryAt?_map_bare, kindAt?, Option.map_map]
    refine Option.map_congr fun e he => ?_
    rw [← entryAt?_path he]
    rfl
  rw [hat, hat, h]

end VendorBundle.Entry
