import VendorBundle.Proofs.Tree.Order

/-!
# Blocks of paths

Paths are strictly ordered, and what the order puts between a directory and something below it lies
below it as well. So in a sorted listing whatever lies below a directory stands in one row, right
behind the directory.
-/

namespace VendorBundle

/-! ## Where a property ends -/

/-- A list splits where a property ends that passes on to all that stands in front. -/
theorem exists_split_of_closed {α : Type} {R : α → α → Prop} {p : α → Prop} {l : List α}
    (h : l.Pairwise R) (hp : ∀ a b, R a b → p b → p a) :
    ∃ front back, l = front ++ back ∧ (∀ a ∈ front, p a) ∧ ∀ a ∈ back, ¬ p a := by
  induction l with
  | nil => exact ⟨[], [], rfl, by simp, by simp⟩
  | cons a l ih =>
      obtain ⟨ha, hl⟩ := List.pairwise_cons.mp h
      by_cases hpa : p a
      · obtain ⟨front, back, rfl, hfront, hback⟩ := ih hl
        exact ⟨a :: front, back, rfl, List.forall_mem_cons.mpr ⟨hpa, hfront⟩, hback⟩
      · refine ⟨[], a :: l, rfl, by simp, List.forall_mem_cons.mpr ⟨hpa, fun b hb hpb => ?_⟩⟩
        exact hpa (hp a b (ha b hb) hpb)

/-! ## Between a directory and what lies below it -/

/-- What lies between a list and a list that goes on with it goes on with it too. -/
theorem prefix_of_between {front rest x : List String} (hfront : (compare front x).isLE)
    (hrest : (compare x (front ++ rest)).isLE) : front <+: x := by
  induction front generalizing x with
  | nil => exact List.nil_prefix
  | cons s front ih =>
      cases x with
      | nil => exact absurd hfront nofun
      | cons t x =>
          change (List.compareLex compare (s :: front) (t :: x)).isLE at hfront
          change (List.compareLex compare (t :: x) (s :: (front ++ rest))).isLE at hrest
          rw [List.compareLex_cons_cons, Ordering.isLE_then_iff_and] at hfront hrest
          have heq : compare s t = .eq := Std.OrientedCmp.isLE_antisymm hfront.1 hrest.1
          obtain rfl := Std.LawfulEqCmp.eq_of_compare heq
          rw [heq] at hfront hrest
          refine List.cons_prefix_cons.mpr ⟨rfl, ih ?_ ?_⟩
          · exact hfront.2.resolve_left nofun
          · exact hrest.2.resolve_left nofun

theorem Below.of_between {dir path x : String} (h : Below dir path)
    (hdir : comparePaths dir x = .lt) (hx : (comparePaths x path).isLE) : Below dir x := by
  obtain ⟨rest, -, hs⟩ := below_iff_split.mp h
  rw [comparePaths, hs] at hx
  have hle : (comparePaths dir x).isLE := by rw [hdir]; rfl
  have hprefix : Text.split '/' dir <+: Text.split '/' x := prefix_of_between hle hx
  exact (below_or_eq_iff_prefix_split.mpr hprefix).resolve_left (comparePaths_ne_of_lt hdir)

/-! ## Sorted listings -/

/-- A sorted listing splits into what comes before a directory, the directory, what lies below it
and what comes after all that. -/
theorem exists_blocks {entries : List Entry}
    (h : entries.Pairwise fun a b => (comparePaths a.path b.path).isLE) (dir : String) :
    ∃ front here block behind, entries = front ++ here ++ block ++ behind ∧
      (∀ e ∈ front, comparePaths e.path dir = .lt) ∧
      (∀ e ∈ here, e.path = dir) ∧
      (∀ e ∈ block, Below dir e.path) ∧
      ∀ e ∈ behind, comparePaths dir e.path = .lt ∧ ¬ Below dir e.path := by
  have hbefore : ∀ a b : Entry, (comparePaths a.path b.path).isLE →
      comparePaths b.path dir = .lt → comparePaths a.path dir = .lt :=
    fun _ _ => Std.TransCmp.lt_of_isLE_of_lt
  have hupTo : ∀ a b : Entry, (comparePaths a.path b.path).isLE →
      (comparePaths b.path dir).isLE → (comparePaths a.path dir).isLE :=
    fun _ _ => Std.TransCmp.isLE_trans
  have hlt : ∀ e : Entry, ¬ (comparePaths e.path dir).isLE → comparePaths dir e.path = .lt :=
    fun e he => Std.OrientedCmp.gt_iff_lt.mp (by simpa [Ordering.isLE_iff_ne_gt] using he)
  -- In front of something below the directory stands, too, what is not behind the directory.
  have hbelow : ∀ a b : Entry, (comparePaths a.path b.path).isLE →
      (comparePaths b.path dir).isLE ∨ Below dir b.path →
      (comparePaths a.path dir).isLE ∨ Below dir a.path := by
    intro a b hab hb
    by_cases ha : (comparePaths a.path dir).isLE
    · exact .inl ha
    · rcases hb with hb | hb
      · exact .inl (hupTo a b hab hb)
      · exact .inr (hb.of_between (hlt a ha) hab)
  obtain ⟨front, rest, rfl, hfront, hrest⟩ := exists_split_of_closed h hbefore
  have hsorted := (List.pairwise_append.mp h).2.1
  obtain ⟨here, rest, rfl, hhere, hbehind⟩ := exists_split_of_closed hsorted hupTo
  have hsorted := (List.pairwise_append.mp hsorted).2.1
  obtain ⟨block, behind, rfl, hblock, hrow⟩ := exists_split_of_closed hsorted hbelow
  refine ⟨front, here, block, behind, by simp [List.append_assoc], hfront, fun e he => ?_,
    fun e he => ?_, fun e he => ?_⟩
  · have hnot := hrest e (List.mem_append_left _ he)
    have hle := hhere e he
    cases hc : comparePaths e.path dir with
    | lt => exact absurd hc hnot
    | eq => exact Std.LawfulEqCmp.eq_of_compare hc
    | gt => simp [hc] at hle
  · exact (hblock e he).resolve_left (hbehind e (List.mem_append_left _ he))
  · exact ⟨hlt e (hbehind e (List.mem_append_right _ he)), fun hb => hrow e he (.inr hb)⟩

/-- The order of paths is a strict total order on all texts, in which only a text is equal to
itself. Whatever it puts between a directory and something below it lies below the directory, so
that in every sorted listing all that lies below a directory is one block, which follows right
behind the directory. -/
theorem comparePaths_blocks (a b c dir path x : String) (entries : List Entry) :
    (comparePaths a b = .eq ↔ a = b) ∧
    comparePaths b a = (comparePaths a b).swap ∧
    (comparePaths a b = .lt → comparePaths b c = .lt → comparePaths a c = .lt) ∧
    (Below dir path → comparePaths dir x = .lt → comparePaths x path ≠ .gt → Below dir x) ∧
    (entries.Pairwise (fun e e' => comparePaths e.path e'.path ≠ .gt) →
      ∃ front here block behind, entries = front ++ here ++ block ++ behind ∧
        (∀ e ∈ front, comparePaths e.path dir = .lt ∧ ¬ Below dir e.path) ∧
        (∀ e ∈ here, e.path = dir) ∧
        (∀ e ∈ block, Below dir e.path) ∧
        ∀ e ∈ behind, comparePaths dir e.path = .lt ∧ ¬ Below dir e.path) := by
  refine ⟨Std.LawfulEqCmp.compare_eq_iff_eq, Std.OrientedCmp.eq_swap, Std.TransCmp.lt_trans,
    fun hp hdir hx => hp.of_between hdir (Ordering.ne_gt_iff_isLE.mp hx), fun hsorted => ?_⟩
  obtain ⟨front, here, block, behind, hsplit, hfront, hhere, hblock, hbehind⟩ :=
    exists_blocks (hsorted.imp Ordering.ne_gt_iff_isLE.mp) dir
  refine ⟨front, here, block, behind, hsplit, fun e he => ⟨hfront e he, fun hb => ?_⟩, hhere,
    hblock, hbehind⟩
  have hgt := Std.OrientedCmp.gt_of_lt hb.lt
  rw [hfront e he] at hgt
  cases hgt

/-- The order of texts would put `a-c` between the directory `a` and `a/b`. -/
example : comparePaths "a/b" "a-c" = .lt ∧ compare "a-c" "a/b" = .lt := by decide +kernel

end VendorBundle
