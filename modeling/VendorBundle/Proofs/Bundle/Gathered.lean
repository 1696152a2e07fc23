import VendorBundle.Proofs.Bundle.Accepted
import VendorBundle.Proofs.Bundle.Told

/-!
# Groups and what decides on them

When versions are told by a function, gathering imports succeeds exactly when each may stand where it
does and goes with the first of its key. The groups then depend only on which imports lead to an
installed package and on where the first of each key leads.
-/

namespace VendorBundle

open Effect
open List (Forall₂)

namespace Split

variable {α : Type} {kind : Kind α}

/-! ## Where a key leads -/

/-- Where the first import of a key leads. -/
def leader? (kind : Kind α) (xs : List (α × Path)) (key : String) : Option Path :=
  (xs.find? (kind.key ·.1 = key)).map (·.2)

theorem leader?_eq_none_iff {xs : List (α × Path)} {key : String} :
    leader? kind xs key = none ↔ ∀ x ∈ xs, kind.key x.1 ≠ key := by
  rw [leader?, Option.map_eq_none_iff, List.find?_eq_none]
  simp

theorem leader?_append (xs ys : List (α × Path)) (key : String) :
    leader? kind (xs ++ ys) key = (leader? kind xs key).or (leader? kind ys key) := by
  rw [leader?, List.find?_append, Option.map_or]
  rfl

theorem leader?_singleton (x : α × Path) (key : String) :
    leader? kind [x] key = if kind.key x.1 = key then some x.2 else none := by
  rw [leader?, List.find?_singleton]
  split <;> simp_all

/-! ## Groups that are not compared -/

/-- Puts an import with its entry file into the first group of its key, or opens one. -/
def join (kind : Kind α) (x : α × Path) : List (ImportGroup α) → List (ImportGroup α)
  | [] => [{ key := kind.key x.1, entrypoint := x.2, first := x.1 }]
  | g :: rest => if g.key = kind.key x.1 then g.add x.1 :: rest else g :: join kind x rest

/-- The groups of some imports with their entry files. -/
def gathered (kind : Kind α) (xs : List (α × Path)) : List (ImportGroup α) :=
  xs.foldl (fun gs x => join kind x gs) []

theorem gathered_concat (xs : List (α × Path)) (x : α × Path) :
    gathered kind (xs ++ [x]) = join kind x (gathered kind xs) := by
  rw [gathered, List.foldl_append]
  rfl

theorem join_of_mem {x : α × Path} {front back : List (ImportGroup α)} {g : ImportGroup α}
    (hf : ∀ g' ∈ front, g'.key ≠ kind.key x.1) (hk : g.key = kind.key x.1) :
    join kind x (front ++ g :: back) = front ++ g.add x.1 :: back := by
  induction front with
  | nil => exact if_pos hk
  | cons g' front ih =>
      obtain ⟨hg', hfront⟩ := List.forall_mem_cons.mp hf
      rw [List.cons_append, join, if_neg hg', ih hfront]
      rfl

theorem join_of_not_mem {x : α × Path} {gs : List (ImportGroup α)}
    (h : ∀ g ∈ gs, g.key ≠ kind.key x.1) :
    join kind x gs = gs ++ [{ key := kind.key x.1, entrypoint := x.2, first := x.1 }] := by
  induction gs with
  | nil => rfl
  | cons g gs ih =>
      obtain ⟨hg, hgs⟩ := List.forall_mem_cons.mp h
      rw [join, if_neg hg, ih hgs]
      rfl

theorem grouped_gathered (kind : Kind α) (xs : List (α × Path)) :
    Grouped kind.key (xs.map (·.1)) (gathered kind xs) := by
  induction xs using List.reverseRecOn with
  | nil => exact .nil kind.key
  | append_singleton xs x ih =>
      rw [gathered_concat, List.map_append]
      rcases group_cases kind x.1 (gathered kind xs) with ⟨front, g, back, hgs, hfront, hk⟩ | hnone
      · rw [hgs] at ih ⊢
        rw [join_of_mem hfront hk]
        exact ih.joined hk
      · rw [join_of_not_mem hnone]
        exact ih.opened hnone x.2

/-- Every import has a group of its key. -/
theorem exists_mem_gathered (kind : Kind α) {xs : List (α × Path)} {x : α × Path} (hx : x ∈ xs) :
    ∃ g ∈ gathered kind xs, g.key = kind.key x.1 := by
  have hgrouped := grouped_gathered kind xs
  obtain ⟨g, hg, hi⟩ :=
    List.mem_flatMap.mp (hgrouped.once.symm.subset (List.mem_map_of_mem (f := (·.1)) hx))
  exact ⟨g, hg, (hgrouped.key_eq hg hi).symm⟩

/-- A group leads where the first import of its key leads. -/
theorem leader?_of_mem_gathered {xs : List (α × Path)} {g : ImportGroup α}
    (hg : g ∈ gathered kind xs) : leader? kind xs g.key = some g.entrypoint := by
  induction xs using List.reverseRecOn generalizing g with
  | nil => exact absurd hg List.not_mem_nil
  | append_singleton xs x ih =>
      rw [gathered_concat] at hg
      rw [leader?_append]
      rcases group_cases kind x.1 (gathered kind xs) with ⟨front, g', back, hgs, hfront, hk⟩ | hnone
      · rw [hgs, join_of_mem hfront hk] at hg
        have hold : ∀ g ∈ front ++ g' :: back, leader? kind xs g.key = some g.entrypoint :=
          fun g hg => ih (hgs ▸ hg)
        have hall : ∀ g ∈ front ++ g'.add x.1 :: back, leader? kind xs g.key = some g.entrypoint := by
          simp only [List.forall_mem_append, List.forall_mem_cons] at hold ⊢
          exact hold
        rw [hall g hg, Option.some_or]
      · rw [join_of_not_mem hnone] at hg
        rcases List.mem_append.mp hg with hg | hg
        · rw [ih hg, Option.some_or]
        · obtain rfl := List.mem_singleton.mp hg
          have hnew : leader? kind xs (kind.key x.1) = none := by
            refine leader?_eq_none_iff.mpr fun y hy he => ?_
            obtain ⟨g, hg, hk⟩ := exists_mem_gathered kind hy
            exact hnone g hg (hk.trans he)
          rw [hnew, Option.none_or, leader?_singleton, if_pos rfl]

theorem exists_group_of_leader? {xs : List (α × Path)} {key : String} {p : Path}
    (h : leader? kind xs key = some p) :
    ∃ g ∈ gathered kind xs, g.key = key ∧ g.entrypoint = p := by
  have hsome : ∃ x ∈ xs, kind.key x.1 = key := by
    by_contra hno
    rw [leader?_eq_none_iff.mpr fun x hx he => hno ⟨x, hx, he⟩] at h
    exact absurd h nofun
  obtain ⟨x, hx, rfl⟩ := hsome
  obtain ⟨g, hg, hk⟩ := exists_mem_gathered kind hx
  have hentry := leader?_of_mem_gathered hg
  rw [hk, h] at hentry
  exact ⟨g, hg, hk, (Option.some.inj hentry).symm⟩

/-! ## When gathering succeeds -/

variable {version : Path → Except ResolveError String}

/-- Two entry files are one, or the same version is told of both. -/
def Compatible (version : Path → Except ResolveError String) (p q : Path) : Prop :=
  p.components = q.components ∨ ∃ v, version p = .ok v ∧ version q = .ok v

/-- All imports go with the first of their key. -/
def Coherent (version : Path → Except ResolveError String) (kind : Kind α)
    (xs : List (α × Path)) : Prop :=
  ∀ x ∈ xs, ∀ p, leader? kind xs (kind.key x.1) = some p → Compatible version p x.2

/-- The import is resolved and may stand where it does. -/
def Resolved.Taken (kind : Kind α) (a : Resolved α) : Prop :=
  ∃ target entry?, a.target = .ok target ∧ kind.entry? a.i target = .ok entry?

theorem checkVersionsBy_eq_ok_iff {specifier : String} {first second : String × Path} :
    checkVersionsBy version specifier first second = .ok () ↔
      ∃ v, version first.2 = .ok v ∧ version second.2 = .ok v := by
  rw [checkVersionsBy]
  cases version first.2 with
  | error e => exact ⟨nofun, fun ⟨v, h, _⟩ => absurd h nofun⟩
  | ok a =>
      cases version second.2 with
      | error e => exact ⟨nofun, fun ⟨v, _, h⟩ => absurd h nofun⟩
      | ok b =>
          by_cases hab : a = b
          · subst hab
            exact ⟨fun _ => ⟨a, rfl, rfl⟩, fun _ => if_pos rfl⟩
          · refine ⟨fun h => absurd h ?_, fun ⟨v, ha, hb⟩ => ?_⟩
            · simp only [Except.mapError, bind, Except.bind, if_neg hab]
              exact nofun
            · exact absurd ((Except.ok.inj ha).trans (Except.ok.inj hb).symm) hab

theorem coherent_concat_iff {xs : List (α × Path)} {x : α × Path} :
    Coherent version kind (xs ++ [x]) ↔ Coherent version kind xs ∧
      ∀ p, leader? kind xs (kind.key x.1) = some p → Compatible version p x.2 := by
  -- What an import is compared with stays when one more comes.
  have hold : ∀ y ∈ xs, leader? kind (xs ++ [x]) (kind.key y.1) = leader? kind xs (kind.key y.1) := by
    intro y hy
    rw [leader?_append]
    cases he : leader? kind xs (kind.key y.1) with
    | some p => rfl
    | none => exact absurd rfl (leader?_eq_none_iff.mp he y hy)
  have hnew : (∀ p, leader? kind (xs ++ [x]) (kind.key x.1) = some p → Compatible version p x.2) ↔
      ∀ p, leader? kind xs (kind.key x.1) = some p → Compatible version p x.2 := by
    rw [leader?_append, leader?_singleton, if_pos rfl]
    cases leader? kind xs (kind.key x.1) with
    | some p => rfl
    | none =>
        refine iff_of_true (fun p h => .inl ?_) nofun
        rw [← Option.some.inj h]
  rw [Coherent, Coherent, List.forall_mem_append, List.forall_mem_singleton, hnew]
  refine and_congr_left fun _ => forall₂_congr fun y hy => ?_
  rw [hold y hy]

theorem gatherBy_eq_ok_iff {i : α} {p : Path} {gs gs' : List (ImportGroup α)} :
    gatherBy version kind i p gs = .ok gs' ↔ gs' = join kind (i, p) gs ∧
      ∀ g, gs.find? (·.key = kind.key i) = some g → Compatible version g.entrypoint p := by
  induction gs generalizing gs' with
  | nil => exact ⟨fun h => ⟨(Except.ok.inj h).symm, nofun⟩, fun ⟨h, _⟩ => h ▸ rfl⟩
  | cons g gs ih =>
      rw [gatherBy, join]
      by_cases hk : g.key = kind.key i
      · rw [if_pos hk, if_pos hk, List.find?_cons_of_pos (by simpa using hk)]
        simp only [Option.some.injEq, forall_eq']
        by_cases hsame : g.entrypoint.same p
        · simp only [hsame, Bool.not_true, Bool.false_eq_true, if_false]
          refine ⟨fun h => ⟨(Except.ok.inj h).symm, .inl (Path.same_iff.mp hsame)⟩, ?_⟩
          rintro ⟨rfl, -⟩
          rfl
        · have hne : g.entrypoint.components ≠ p.components := fun he =>
            hsame (Path.same_iff.mpr he)
          simp only [hsame, Bool.not_false, if_true, Effect.bind_eq_ok_iff, Compatible, hne,
            false_or]
          constructor
          · rintro ⟨⟨⟩, h, hgs⟩
            exact ⟨(Except.ok.inj hgs).symm, checkVersionsBy_eq_ok_iff.mp h⟩
          · rintro ⟨rfl, h⟩
            exact ⟨(), checkVersionsBy_eq_ok_iff.mpr h, rfl⟩
      · rw [if_neg hk, if_neg hk, List.find?_cons_of_neg (by simpa using hk),
          Effect.bind_eq_ok_iff]
        constructor
        · rintro ⟨rest, hrest, hgs⟩
          obtain ⟨rfl, hall⟩ := ih.mp hrest
          exact ⟨(Except.ok.inj hgs).symm, hall⟩
        · rintro ⟨rfl, hall⟩
          exact ⟨_, ih.mpr ⟨rfl, hall⟩, rfl⟩

/-- An import is compared with what the first of its key leads to. -/
theorem gatherBy_gathered_eq_ok_iff {xs : List (α × Path)} {x : α × Path}
    {gs : List (ImportGroup α)} : gatherBy version kind x.1 x.2 (gathered kind xs) = .ok gs ↔
      gs = gathered kind (xs ++ [x]) ∧
        ∀ p, leader? kind xs (kind.key x.1) = some p → Compatible version p x.2 := by
  rw [gatherBy_eq_ok_iff, gathered_concat]
  refine and_congr_right fun _ => ⟨fun h p hp => ?_, fun h g hg => ?_⟩
  · have hsome : ((gathered kind xs).find? (·.key = kind.key x.1)).isSome := by
      obtain ⟨g, hg, hk, -⟩ := exists_group_of_leader? hp
      exact List.find?_isSome.mpr ⟨g, hg, by simpa using hk⟩
    obtain ⟨g, hg⟩ := Option.isSome_iff_exists.mp hsome
    have hk : g.key = kind.key x.1 := by simpa using List.find?_some hg
    have hentry := leader?_of_mem_gathered (List.mem_of_find?_eq_some hg)
    rw [hk, hp] at hentry
    exact Option.some.inj hentry ▸ h g hg
  · have hk : g.key = kind.key x.1 := by simpa using List.find?_some hg
    exact h _ (hk ▸ leader?_of_mem_gathered (List.mem_of_find?_eq_some hg))

theorem takeBy_gathered_eq_ok_iff (hk : kind.TakesExternal) {as : List (Resolved α)}
    {a : Resolved α} {gs : List (ImportGroup α)} :
    takeBy version kind (gathered kind (sighted as)) a = .ok gs ↔ a.Taken kind ∧
      gs = gathered kind (sighted (as ++ [a])) ∧
      ∀ x ∈ sighted [a], ∀ p, leader? kind (sighted as) (kind.key x.1) = some p →
        Compatible version p x.2 := by
  obtain ⟨i, target⟩ := a
  rw [sighted_append]
  cases target with
  | error e => simp [takeBy, Resolved.Taken]
  | ok target =>
      simp only [takeBy, Resolved.Taken, Except.ok.injEq, exists_eq_left', exists_and_left]
      cases he : kind.entry? i target with
      | error e => simp
      | ok leader? =>
          cases leader? with
          | none =>
              have hnone : sighted [(⟨i, .ok target⟩ : Resolved α)] = [] := by
                cases target with
                | external p => exact absurd ((hk i _ p).mpr rfl) (by simp [he])
                | _ => rfl
              rw [hnone, List.append_nil]
              simp [pure, Except.pure, eq_comm]
          | some p =>
              obtain rfl := (hk i target p).mp he
              have hone : sighted [(⟨i, .ok (.external p)⟩ : Resolved α)] = [(i, p)] := rfl
              rw [hone, List.forall_mem_singleton]
              refine (gatherBy_gathered_eq_ok_iff (x := (i, p))).trans ?_
              simp

/-- Gathering succeeds exactly when all imports may stand where they do and go with the first of
their key. -/
theorem foldlM_takeBy_eq_ok_iff (hk : kind.TakesExternal) {as : List (Resolved α)}
    {gs : List (ImportGroup α)} : as.foldlM (takeBy version kind) [] = .ok gs ↔
      (∀ a ∈ as, a.Taken kind) ∧ Coherent version kind (sighted as) ∧
        gs = gathered kind (sighted as) := by
  induction as using List.reverseRecOn generalizing gs with
  | nil => exact ⟨fun h => ⟨nofun, nofun, (Except.ok.inj h).symm⟩, fun ⟨_, _, h⟩ => h ▸ rfl⟩
  | append_singleton as a ih =>
      rw [List.foldlM_append, Effect.bind_eq_ok_iff, List.forall_mem_append,
        List.forall_mem_singleton]
      have hone : ∀ {hs}, [a].foldlM (takeBy version kind) hs = takeBy version kind hs a :=
        fun {hs} => by simp
      simp only [ih, hone]
      have hcoherent : Coherent version kind (sighted (as ++ [a])) ↔
          Coherent version kind (sighted as) ∧ ∀ x ∈ sighted [a], ∀ p,
            leader? kind (sighted as) (kind.key x.1) = some p → Compatible version p x.2 := by
        rw [sighted_append]
        have hcases : sighted [a] = [] ∨ ∃ x, sighted [a] = [x] := by
          simp only [sighted, List.filterMap_cons, List.filterMap_nil]
          split
          · exact .inl rfl
          · exact .inr ⟨_, rfl⟩
        rcases hcases with hnone | ⟨x, hx⟩
        · simp [hnone]
        · rw [hx, coherent_concat_iff, List.forall_mem_singleton]
      rw [hcoherent]
      constructor
      · rintro ⟨_, ⟨htaken, hall, rfl⟩, h⟩
        obtain ⟨ha, hgs, hx⟩ := (takeBy_gathered_eq_ok_iff hk).mp h
        exact ⟨⟨htaken, ha⟩, ⟨hall, hx⟩, hgs⟩
      · rintro ⟨⟨htaken, ha⟩, ⟨hall, hx⟩, hgs⟩
        exact ⟨_, ⟨htaken, hall, rfl⟩, (takeBy_gathered_eq_ok_iff hk).mpr ⟨ha, hgs, hx⟩⟩

/-! ## Groups that are the same -/

theorem join_related {x y : α × Path} (hxy : x.1 = y.1) {gs hs : List (ImportGroup α)}
    (h : Forall₂ (fun g h => g.key = h.key ∧ g.first = h.first ∧ g.more = h.more) gs hs) :
    Forall₂ (fun g h => g.key = h.key ∧ g.first = h.first ∧ g.more = h.more) (join kind x gs)
      (join kind y hs) := by
  induction h with
  | nil => exact .cons ⟨congrArg kind.key hxy, hxy, rfl⟩ .nil
  | @cons g g' gs hs hsame hrest ih =>
      rw [join, join, ← hsame.1, ← hxy]
      split
      · refine .cons ⟨hsame.1, hsame.2.1, ?_⟩ hrest
        rw [ImportGroup.add, ImportGroup.add, hsame.2.2]
      · exact .cons hsame ih

/-- Imports that lead to an installed package make the same groups when the first of each key leads
to the same place. -/
theorem same_gathered {xs ys : List (α × Path)} (h : xs.map (·.1) = ys.map (·.1))
    (he : ∀ x ∈ xs, (leader? kind xs (kind.key x.1)).map Path.components =
      (leader? kind ys (kind.key x.1)).map Path.components) :
    Forall₂ ImportGroup.Same (gathered kind xs) (gathered kind ys) := by
  have hpairs : Forall₂ (fun x y : α × Path => x.1 = y.1) xs ys := by
    rw [← List.forall₂_eq_eq_eq, List.forall₂_map_left_iff, List.forall₂_map_right_iff] at h
    exact h
  have hrelated : Forall₂ (fun g h : ImportGroup α =>
      g.key = h.key ∧ g.first = h.first ∧ g.more = h.more) (gathered kind xs) (gathered kind ys) :=
    List.rel_foldl (P := Forall₂ fun g h : ImportGroup α =>
      g.key = h.key ∧ g.first = h.first ∧ g.more = h.more)
      (fun _ _ hgs _ _ hxy => join_related hxy hgs) .nil hpairs
  obtain ⟨hlength, hzip⟩ := List.forall₂_iff_zip.mp hrelated
  refine List.forall₂_iff_zip.mpr ⟨hlength, fun {g h} hmem => ?_⟩
  obtain ⟨hkey, hfirst, hmore⟩ := hzip hmem
  obtain ⟨hg, hh⟩ := List.of_mem_zip hmem
  refine ⟨hkey, Path.same_iff.mpr ?_, hfirst, hmore⟩
  have hgrouped := grouped_gathered kind xs
  have hown : g.first ∈ g.importers := List.mem_cons_self
  obtain ⟨x, hx, hxi⟩ := List.mem_map.mp (hgrouped.subset hg hown)
  have hxk : kind.key x.1 = g.key := hxi ▸ hgrouped.key_eq hg hown
  have hsame := he x hx
  rw [hxk, leader?_of_mem_gathered hg, hkey, leader?_of_mem_gathered hh] at hsame
  exact Option.some.inj hsame

end Split

end VendorBundle
