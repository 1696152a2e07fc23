import VendorBundle.Proofs.Tree.Diff

/-!
# A patch says what differs

The patch between two ascending listings is settled path by path. It removes, from the last path to
the first, what the new listing does not hold as the same kind; then it puts, from the first path to
the last, what the old listing does not hold as the same kind, and the files whose tokens differ.
Nothing else is in it, so it is empty when the listings differ in nothing but the tokens of
directories.
-/

namespace VendorBundle

open Entry

namespace Patch

/-! ## What is removed and what is put -/

/-- The removals that two listings call for. -/
inductive Removes (olds news : List Entry) : PatchOp → Prop where
  | unlink {old : Entry} (hold : old ∈ olds) (hk : old.kind = .file)
      (hgone : ∀ new ∈ news, new.path = old.path → new.kind ≠ .file) :
      Removes olds news (.unlink old.path)
  | rmdir {old : Entry} (hold : old ∈ olds) (hk : old.kind = .directory)
      (hgone : ∀ new ∈ news, new.path = old.path → new.kind ≠ .directory) :
      Removes olds news (.rmdir old.path)

/-- The additions and changes that two listings call for. -/
inductive Puts (olds news : List Entry) : PatchOp → Prop where
  | create {new : Entry} (hnew : new ∈ news) (hk : new.kind = .file)
      (hcomes : ∀ old ∈ olds, old.path = new.path → old.kind ≠ .file) :
      Puts olds news (.create new.path new)
  | mkdir {new : Entry} (hnew : new ∈ news) (hk : new.kind = .directory)
      (hcomes : ∀ old ∈ olds, old.path = new.path → old.kind ≠ .directory) :
      Puts olds news (.mkdir new.path)
  | change {old new : Entry} (hold : old ∈ olds) (hnew : new ∈ news) (hp : old.path = new.path)
      (hk : old.kind = .file) (hk' : new.kind = .file) (ht : old.token ≠ new.token) :
      Puts olds news (.change new.path new)

variable {olds news : List Entry}

theorem removes_iff (hn : Ascending news) {op : PatchOp} : Removes olds news op ↔
    ∃ old ∈ olds, isGone news old = true ∧ op = .removal old := by
  simp only [isGone_iff, hn.kindAt?_ne_iff]
  constructor
  · rintro (⟨hold, hk, hgone⟩ | ⟨hold, hk, hgone⟩)
    · exact ⟨_, hold, by rwa [hk], by rw [PatchOp.removal, hk]⟩
    · exact ⟨_, hold, by rwa [hk], by rw [PatchOp.removal, hk]⟩
  · rintro ⟨old, hold, hgone, rfl⟩
    rw [PatchOp.removal]
    cases hk : old.kind with
    | file => exact .unlink hold hk (by rwa [hk] at hgone)
    | directory => exact .rmdir hold hk (by rwa [hk] at hgone)

/-- An entry is added when the old listing does not hold its path as the same kind, and changed when
it is a file there with another token. -/
theorem arrival?_eq_some_iff {new : Entry} {op : PatchOp} : arrival? olds new = some op ↔
    (kindAt? olds new.path ≠ some new.kind ∧ op = .addition new) ∨
      (new.kind = .file ∧ (∃ old, entryAt? olds new.path = some old ∧ old.kind = .file ∧
        old.token ≠ new.token) ∧ op = .change new.path new) := by
  rw [arrival?, kindAt?]
  cases entryAt? olds new.path with
  | none => simp [eq_comm]
  | some old =>
      by_cases hk : old.kind = new.kind
      · simp [hk, eq_comm, and_assoc]
      · simp only [hk, ne_eq, not_false_eq_true, if_true, Option.map_some, Option.some.injEq]
        constructor
        · exact fun h => .inl ⟨trivial, h.symm⟩
        · rintro (⟨-, h⟩ | ⟨hf, ⟨_, rfl, hf', -⟩, -⟩)
          · exact h.symm
          · exact absurd (hf'.trans hf.symm) hk

theorem puts_iff (ho : Ascending olds) {op : PatchOp} : Puts olds news op ↔
    ∃ new ∈ news, arrival? olds new = some op := by
  simp only [arrival?_eq_some_iff, ho.kindAt?_ne_iff, ho.entryAt?_eq_some_iff]
  constructor
  · rintro (⟨hnew, hk, hcomes⟩ | ⟨hnew, hk, hcomes⟩ | ⟨hold, hnew, hp, hk, hk', ht⟩)
    · exact ⟨_, hnew, .inl ⟨by rwa [hk], by rw [PatchOp.addition, hk]⟩⟩
    · exact ⟨_, hnew, .inl ⟨by rwa [hk], by rw [PatchOp.addition, hk]⟩⟩
    · exact ⟨_, hnew, .inr ⟨hk', ⟨_, ⟨hold, hp⟩, hk, ht⟩, rfl⟩⟩
  · rintro ⟨new, hnew, ⟨hcomes, rfl⟩ | ⟨hk', ⟨old, ⟨hold, hp⟩, hk, ht⟩, rfl⟩⟩
    · rw [PatchOp.addition]
      cases hk : new.kind with
      | file => exact .create hnew hk (by rwa [hk] at hcomes)
      | directory => exact .mkdir hnew hk (by rwa [hk] at hcomes)
    · exact .change hold hnew hp hk hk' ht

/-! ## The order of a patch -/

theorem pairwise_removals (ho : Ascending olds) (keep : Entry → Bool) :
    (((olds.filter keep).map PatchOp.removal).reverse).Pairwise
      fun a b => comparePaths a.path b.path = .gt := by
  rw [List.pairwise_reverse, List.pairwise_map]
  refine (ho.sublist List.filter_sublist).imp fun {a b} hlt => ?_
  rw [PatchOp.path_removal, PatchOp.path_removal]
  exact Std.OrientedCmp.gt_of_lt hlt

theorem pairwise_arrivals (hn : Ascending news) (olds : List Entry) :
    (news.filterMap (arrival? olds)).Pairwise fun a b => comparePaths a.path b.path = .lt := by
  rw [List.pairwise_filterMap]
  refine hn.imp fun {a b} hlt op hop op' hop' => ?_
  rwa [path_of_arrival? hop, path_of_arrival? hop']

/-! ## The empty patch -/

/-- What a listing says of its paths without the tokens. -/
def outline (entries : List Entry) : List (String × EntryKind) :=
  entries.map fun e => (e.path, e.kind)

theorem outline_map_bare (entries : List Entry) : outline (entries.map bare) = outline entries := by
  rw [outline, outline, List.map_map]
  rfl

theorem kindAt?_eq_outline (entries : List Entry) (path : String) : kindAt? entries path =
    ((outline entries).reverse.find? fun p => p.1 = path).map Prod.snd := by
  rw [kindAt?, entryAt?, outline, ← List.map_reverse, List.find?_map, Option.map_map]
  rfl

/-- Ascending listings with the same paths, of the same kinds, have one outline. -/
theorem outline_eq_iff {a b : List Entry} (ha : Ascending a) (hb : Ascending b) :
    outline a = outline b ↔ ∀ path, kindAt? a path = kindAt? b path := by
  constructor
  · intro h path
    rw [kindAt?_eq_outline, h, kindAt?_eq_outline]
  · intro h
    rw [← outline_map_bare a, ha.map_bare hb h, outline_map_bare]

/-- A patch is empty when the listings differ in nothing but the tokens of directories. -/
theorem between_eq_nil_iff (ho : Ascending olds) (hn : Ascending news) :
    Patch.between olds news = [] ↔ outline olds = outline news ∧
      ∀ old ∈ olds, ∀ new ∈ news, old.path = new.path → old.kind = .file →
        old.token = new.token := by
  rw [outline_eq_iff ho hn]
  constructor
  · intro h
    have hno : ∀ path, ∀ op ∈ Patch.between olds news, op.path ≠ path := by
      rw [h]
      exact fun _ _ hop => absurd hop List.not_mem_nil
    refine ⟨fun path => kindAt?_of_no_op ho hn (hno path), fun old hold new hnew hp => ?_⟩
    exact token_of_no_op ho hn (hno old.path) (ho.entryAt?_eq_some_iff.mpr ⟨hold, rfl⟩)
      (hn.entryAt?_eq_some_iff.mpr ⟨hnew, hp.symm⟩)
  · rintro ⟨hkinds, htokens⟩
    have hat : ∀ {entries : List Entry} {e : Entry}, Ascending entries → e ∈ entries →
        kindAt? entries e.path = some e.kind := fun ha he =>
      kindAt?_eq_some_iff.mpr ⟨_, ha.entryAt?_eq_some_iff.mpr ⟨he, rfl⟩, rfl⟩
    rw [List.eq_nil_iff_forall_not_mem]
    intro op hop
    rcases (mem_between ho hn).mp hop with ⟨old, hold, hgone, -⟩ | ⟨new, hnew, harrives⟩
    · exact isGone_iff.mp hgone (hkinds old.path ▸ hat ho hold)
    · rcases arrival?_eq_some_iff.mp harrives with ⟨hcomes, -⟩ | ⟨-, ⟨old, hold, hk, ht⟩, -⟩
      · exact hcomes (hkinds new.path ▸ hat hn hnew)
      · exact ht (htokens old (entryAt?_mem hold) new hnew (entryAt?_path hold) hk)

/-- The patch between two ascending listings is exactly what they call for: the removals in
descending order, then the additions and changes in ascending order. -/
theorem between_exact (ho : Ascending olds) (hn : Ascending news) :
    (∃ removals arrivals, Patch.between olds news = removals ++ arrivals ∧
      removals.Pairwise (fun a b => comparePaths a.path b.path = .gt) ∧
      (∀ op, op ∈ removals ↔ Removes olds news op) ∧
      arrivals.Pairwise (fun a b => comparePaths a.path b.path = .lt) ∧
      ∀ op, op ∈ arrivals ↔ Puts olds news op) ∧
    (Patch.between olds news = [] ↔ outline olds = outline news ∧
      ∀ old ∈ olds, ∀ new ∈ news, old.path = new.path → old.kind = .file →
        old.token = new.token) := by
  refine ⟨⟨_, _, between_eq ho hn, pairwise_removals ho _, fun op => ?_,
    pairwise_arrivals hn olds, fun op => ?_⟩, between_eq_nil_iff ho hn⟩
  · rw [removes_iff hn, List.mem_reverse, List.mem_map]
    simp only [List.mem_filter, and_assoc, eq_comm]
  · rw [puts_iff ho, List.mem_filterMap]

/-- A directory that becomes a file, a file that changes, and a file that is new. -/
def earlier : List Entry :=
  [.dir "a", .file "a/b" (.content "x"), .file "c" (.content "x"), .dir "d"]

def later : List Entry :=
  [.file "a" (.content "x"), .file "b" (.content "x"), .file "c" (.content "y"), .dir "d"]

example : Patch.between earlier later = [.rmdir "a", .unlink "a/b"].reverse ++
    [.create "a" (.file "a" (.content "x")), .create "b" (.file "b" (.content "x")),
      .change "c" (.file "c" (.content "y"))] := by
  decide +kernel

theorem between_earlier_exact : Ascending earlier ∧ Ascending later ∧
    (∃ removals arrivals, Patch.between earlier later = removals ++ arrivals ∧
      removals.Pairwise (fun a b => comparePaths a.path b.path = .gt) ∧
      (∀ op, op ∈ removals ↔ Removes earlier later op) ∧
      arrivals.Pairwise (fun a b => comparePaths a.path b.path = .lt) ∧
      ∀ op, op ∈ arrivals ↔ Puts earlier later op) ∧
    (Patch.between earlier later = [] ↔ outline earlier = outline later ∧
      ∀ old ∈ earlier, ∀ new ∈ later, old.path = new.path → old.kind = .file →
        old.token = new.token) := by
  have he : Ascending earlier := by decide +kernel
  have hl : Ascending later := by decide +kernel
  exact ⟨he, hl, between_exact he hl⟩

end Patch

end VendorBundle
