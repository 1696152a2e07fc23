import VendorBundle.Config.Form
import VendorBundle.Proofs.Json.Overlay

/-!
# A configuration over the defaults

What a manifest says about a configuration is laid over the default configuration and then read. The
fields that it leaves out are so taken from the defaults of the whole, and not from those of the
fields. Both are the same but for two fields.
-/

namespace VendorBundle.Config

open Json (lookup overlayMembers overlay_object overlay_of_not_object lookup_overlayMembers)

/-! ## Reading more freely -/

/-- The fields of a single value are those that are read from layers, also over an object. -/
theorem fields?_overlay (covered : Json) {under : List (String × Json)} {count : Nat} {v : Json}
    {r : Record} (hc : covered.object? = some under) (h : fields? .single count v = some r) :
    ∃ r', fields? .layers count (covered.overlay v) = some r' ∧ r.Over under r' := by
  cases covered with
  | object members =>
      obtain rfl := Option.some.inj hc
      cases v with
      | object upper =>
          obtain rfl := Option.some.inj h
          rw [overlay_object]
          exact ⟨_, rfl, .named upper⟩
      | array items =>
          obtain ⟨-, hr⟩ := Option.ite_none_right_eq_some.mp h
          obtain rfl := Option.some.inj hr
          exact ⟨_, rfl, .listed items⟩
      | _ => cases h
  | _ => cases hc

theorem leavesOut_of_fields? {count : Nat} {v : Json} {r : Record} {key : String}
    (h : fields? .single count v = some r) : v.leavesOut key = r.leavesOut key := by
  cases v with
  | object members =>
      obtain rfl := Option.some.inj h
      rfl
  | array items =>
      obtain ⟨-, hr⟩ := Option.ite_none_right_eq_some.mp h
      obtain rfl := Option.some.inj hr
      rfl
  | _ => cases h

theorem fields?_layers {count : Nat} {v : Json} {r : Record}
    (h : fields? .single count v = some r) : fields? .layers count v = some r := by
  cases v with
  | object members => exact h
  | array items =>
      obtain ⟨-, hr⟩ := Option.ite_none_right_eq_some.mp h
      exact hr
  | _ => cases h

theorem mapM_layers {α β : Type} {f g : α → Option β} (hfg : ∀ a b, f a = some b → g a = some b)
    {items : List α} {results : List β} (h : items.mapM f = some results) :
    items.mapM g = some results := by
  induction items generalizing results with
  | nil => exact h
  | cons a items ih =>
      rw [List.mapM_cons] at h ⊢
      obtain ⟨b, hb, h⟩ := Option.bind_eq_some_iff.mp h
      obtain ⟨bs, hbs, h⟩ := Option.bind_eq_some_iff.mp h
      rw [hfg a b hb, ih hbs]
      exact h

theorem treesOfJson?_layers {v : Json} {trees : List Tree}
    (h : treesOfJson? .single v = some trees) : treesOfJson? .layers v = some trees := by
  cases v with
  | array items =>
      refine mapM_layers (fun item tree ht => ?_) h
      obtain ⟨r, hr, htree⟩ := Option.bind_eq_some_iff.mp ht
      exact Option.bind_eq_some_iff.mpr ⟨r, fields?_layers hr, htree⟩
  | _ => cases h

theorem rulesOfJson?_layers {v : Json} {rules : List BundleRule}
    (h : rulesOfJson? .single v = some rules) : rulesOfJson? .layers v = some rules := by
  cases v with
  | array items =>
      refine mapM_layers (fun item rule ht => ?_) h
      obtain ⟨r, hr, hrule⟩ := Option.bind_eq_some_iff.mp ht
      exact Option.bind_eq_some_iff.mpr ⟨r, fields?_layers hr, hrule⟩
  | _ => cases h

theorem Merge.ofJson?_layers {v : Json} {m : Merge} (h : Merge.ofJson? .single v = some m) :
    Merge.ofJson? .layers v = some m := by
  obtain ⟨r, hr, hmerge⟩ := Option.bind_eq_some_iff.mp h
  exact Option.bind_eq_some_iff.mpr ⟨r, fields?_layers hr, hmerge⟩

theorem mergeOfJson?_layers {v : Json} {merge : Option Merge}
    (h : mergeOfJson? .single v = some merge) : mergeOfJson? .layers v = some merge := by
  by_cases hv : v = .null
  · subst hv
    exact h
  · rw [mergeOfJson?.eq_2 _ _ hv] at h ⊢
    obtain ⟨m, hm, rfl⟩ := Option.map_eq_some_iff.mp h
    rw [Merge.ofJson?_layers hm, Option.map_some]

theorem tokenMode?_layers {v : Json} {mode : TokenMode} (h : tokenMode? .single v = some mode) :
    tokenMode? .layers v = some mode := by
  cases v with
  | object members =>
      rcases members with _ | ⟨⟨name, value⟩, _ | _⟩
      · cases h
      · cases value with
        | null =>
            have hname : firstKey? [(name, .null)] = some name := by simp [firstKey?, lookup]
            rw [tokenMode?, hname]
            exact h
        | _ => cases h
      · cases value <;> cases h
  | _ => exact h

theorem layers_of_section {α : Type} {read read' : Json → Option α}
    (hread : ∀ v a, read v = some a → read' v = some a) {r : Record} {i : Nat} {key : String}
    {d a : α} (h : section? r i key d read = some a) : section? r i key d read' = some a := by
  rw [section?] at h ⊢
  cases hf : r.field? i key with
  | none =>
      rw [hf] at h
      exact h
  | some v =>
      rw [hf] at h
      exact hread v a h

/-! ## Sections -/

/-- What lies below a section: that section of the default configuration. -/
def below (key : String) : Json := (({} : Config).toJson.get? key).getD .null

variable {v : Json}

theorem Owner.ofJson?_overlay {o : Owner} (h : Owner.ofJson? .single v = some o) :
    Owner.ofJson? .layers ((below "package").overlay v) = some o := by
  obtain ⟨r, hr, h⟩ := Option.bind_eq_some_iff.mp h
  obtain ⟨r', hr', hover⟩ := fields?_overlay (below "package") rfl hr
  have haliases : r'.withDefault 3 "aliases" (∅ : Table String String) =
      r.withDefault 3 "aliases" ∅ := by
    obtain ⟨_, -, h⟩ := Option.bind_eq_some_iff.mp h
    obtain ⟨_, -, h⟩ := Option.bind_eq_some_iff.mp h
    obtain ⟨_, -, h⟩ := Option.bind_eq_some_iff.mp h
    obtain ⟨t, ht, -⟩ := Option.bind_eq_some_iff.mp h
    exact hover.withDefault_table rfl ht
  refine Option.bind_eq_some_iff.mpr ⟨r', hr', ?_⟩
  dsimp only
  rw [hover.withDefault 0 "name" _ rfl rfl rfl, hover.withDefault 1 "root" _ rfl rfl rfl,
    hover.withDefault 2 "file_extensions" _ rfl rfl rfl, haliases,
    hover.withDefault 4 "exclude" _ rfl rfl rfl]
  exact h

theorem resolveOfJson?_overlay {o : ResolveOptions} (h : resolveOfJson? .single v = some o) :
    resolveOfJson? .layers ((below "resolve").overlay v) = some o := by
  obtain ⟨r, hr, h⟩ := Option.bind_eq_some_iff.mp h
  obtain ⟨r', hr', hover⟩ := fields?_overlay (below "resolve") rfl hr
  refine Option.bind_eq_some_iff.mpr ⟨r', hr', ?_⟩
  dsimp only
  rw [hover.withDefault 0 "extensions" _ rfl rfl rfl,
    hover.withDefault 1 "main_fields" _ rfl rfl rfl]
  exact h

theorem planFileOfJson?_overlay {p : Path} (h : planFileOfJson? .single v = some p) :
    planFileOfJson? .layers ((below "output").overlay v) = some p := by
  obtain ⟨r, hr, h⟩ := Option.bind_eq_some_iff.mp h
  obtain ⟨r', hr', hover⟩ := fields?_overlay (below "output") rfl hr
  refine Option.bind_eq_some_iff.mpr ⟨r', hr', ?_⟩
  rwa [hover.withDefault 0 "deps_file" _ rfl rfl rfl]

/-- The bundles are read from the fields of a record. -/
structure Bundles.ReadFrom (origin : ValueOrigin) (r : Record) (b : Bundles) : Prop where
  names : r.withDefault 0 "names" ({} : Bundles).names = some b.names
  default : r.withDefault 1 "default" ({} : Bundles).default = some b.default
  rules : section? r 2 "rules" ({} : Bundles).rules (rulesOfJson? origin) = some b.rules
  treeKinds : r.withDefault 3 "tree_kinds" ({} : Bundles).treeKinds = some b.treeKinds

theorem Bundles.ofJson?_eq_some_iff {origin : ValueOrigin} {b : Bundles} :
    Bundles.ofJson? origin v = some b ↔
      ∃ r, fields? origin 4 v = some r ∧ b.ReadFrom origin r := by
  constructor
  · intro h
    obtain ⟨r, hr, h⟩ := Option.bind_eq_some_iff.mp h
    obtain ⟨names, hnames, h⟩ := Option.bind_eq_some_iff.mp h
    obtain ⟨default, hdefault, h⟩ := Option.bind_eq_some_iff.mp h
    obtain ⟨rules, hrules, h⟩ := Option.bind_eq_some_iff.mp h
    obtain ⟨treeKinds, htreeKinds, h⟩ := Option.bind_eq_some_iff.mp h
    obtain rfl := Option.some.inj h
    exact ⟨r, hr, hnames, hdefault, hrules, htreeKinds⟩
  · rintro ⟨r, hr, h⟩
    refine Option.bind_eq_some_iff.mpr ⟨r, hr, ?_⟩
    dsimp only
    rw [h.names, h.default, h.rules, h.treeKinds]
    rfl

/-- The settings are read from the fields of a record. -/
structure General.ReadFrom (origin : ValueOrigin) (r : Record) (g : General) : Prop where
  maxConcurrency : r.withDefault 0 "max_concurrency" none = some g.maxConcurrency
  tokenMode : section? r 1 "token_mode" .stat (tokenMode? origin) = some g.tokenMode
  ignore : r.withDefault 2 "ignore" none = some g.ignore
  logLevel : r.withDefault 3 "log_level" none = some g.logLevel
  debounce : r.withDefault 4 "debounce_ms" defaultDebounce = some g.debounce

theorem General.ofJson?_eq_some_iff {origin : ValueOrigin} {g : General} :
    General.ofJson? origin v = some g ↔
      ∃ r, fields? origin 5 v = some r ∧ g.ReadFrom origin r := by
  constructor
  · intro h
    obtain ⟨r, hr, h⟩ := Option.bind_eq_some_iff.mp h
    obtain ⟨maxConcurrency, hmax, h⟩ := Option.bind_eq_some_iff.mp h
    obtain ⟨tokenMode, hmode, h⟩ := Option.bind_eq_some_iff.mp h
    obtain ⟨ignore, hignore, h⟩ := Option.bind_eq_some_iff.mp h
    obtain ⟨logLevel, hlevel, h⟩ := Option.bind_eq_some_iff.mp h
    obtain ⟨debounce, hdebounce, h⟩ := Option.bind_eq_some_iff.mp h
    obtain rfl := Option.some.inj h
    exact ⟨r, hr, hmax, hmode, hignore, hlevel, hdebounce⟩
  · rintro ⟨r, hr, h⟩
    refine Option.bind_eq_some_iff.mpr ⟨r, hr, ?_⟩
    rw [h.maxConcurrency, h.tokenMode, h.ignore, h.logLevel, h.debounce]
    rfl

/-- Rules that are left out are those of the default bundles. -/
theorem Bundles.ofJson?_overlay {b : Bundles} (h : Bundles.ofJson? .single v = some b) :
    Bundles.ofJson? .layers ((below "bundles").overlay v) =
      some (if v.leavesOut "rules" then { b with rules := Bundles.standard.rules } else b) := by
  obtain ⟨r, hr, hb⟩ := Bundles.ofJson?_eq_some_iff.mp h
  obtain ⟨r', hr', hover⟩ := fields?_overlay (below "bundles") rfl hr
  have hnames := (hover.withDefault 0 "names" _ rfl rfl rfl).trans hb.names
  have hdefault := (hover.withDefault 1 "default" _ rfl rfl rfl).trans hb.default
  have htreeKinds := (hover.withDefault_table rfl hb.treeKinds).trans hb.treeKinds
  refine Bundles.ofJson?_eq_some_iff.mpr ⟨r', hr', ?_⟩
  rw [leavesOut_of_fields? hr]
  cases hl : r.leavesOut "rules" with
  | true =>
      refine ⟨hnames, hdefault, ?_, htreeKinds⟩
      rw [section?, hover.field?_of_leavesOut hl]
      rfl
  | false =>
      refine ⟨hnames, hdefault, ?_, htreeKinds⟩
      have hsame := layers_of_section (fun _ _ => rulesOfJson?_layers) hb.rules
      rw [section?] at hsame ⊢
      rwa [hover.field?_of_given hl rfl rfl]

/-- A time that is left out is that of the default settings. -/
theorem General.ofJson?_overlay {g : General} (h : General.ofJson? .single v = some g) :
    General.ofJson? .layers ((below "settings").overlay v) =
      some (if v.leavesOut "debounce_ms"
        then { g with debounce := ({} : General).debounce } else g) := by
  obtain ⟨r, hr, hg⟩ := General.ofJson?_eq_some_iff.mp h
  obtain ⟨r', hr', hover⟩ := fields?_overlay (below "settings") rfl hr
  have hmax := (hover.withDefault 0 "max_concurrency" _ rfl rfl rfl).trans hg.maxConcurrency
  have hignore := (hover.withDefault 2 "ignore" _ rfl rfl rfl).trans hg.ignore
  have hlevel := (hover.withDefault 3 "log_level" _ rfl rfl rfl).trans hg.logLevel
  have hmode : section? r' 1 "token_mode" .stat (tokenMode? .layers) = some g.tokenMode := by
    have hsame := layers_of_section (fun _ _ => tokenMode?_layers) hg.tokenMode
    rw [section?] at hsame ⊢
    cases hl : r.leavesOut "token_mode" with
    | true =>
        rw [Record.field?_eq_none hl] at hsame
        rw [hover.field?_of_leavesOut hl]
        exact hsame
    | false => rwa [hover.field?_of_given hl rfl rfl]
  refine General.ofJson?_eq_some_iff.mpr ⟨r', hr', ?_⟩
  rw [leavesOut_of_fields? hr]
  cases hl : r.leavesOut "debounce_ms" with
  | true =>
      refine ⟨hmax, hmode, hignore, hlevel, ?_⟩
      have hread : (JsonForm.ofJson? (JsonForm.toJson ({} : General).debounce) : Option UInt64) =
          some ({} : General).debounce := by decide +kernel
      rw [Record.withDefault, hover.field?_of_leavesOut hl]
      exact hread
  | false =>
      refine ⟨hmax, hmode, hignore, hlevel, ?_⟩
      have hsame := hg.debounce
      rw [Record.withDefault] at hsame ⊢
      rwa [hover.field?_of_given hl rfl rfl]

/-! ## The whole -/

/-- The section is given as an object without the key. -/
def leavesOut (members : List (String × Json)) (part key : String) : Bool :=
  (lookup part members).any (·.leavesOut key)

/-- A configuration that was read from an object, with what that leaves out taken from the default
configuration. -/
def laidOver (c : Config) (members : List (String × Json)) : Config := { c with
  bundles :=
    if leavesOut members "bundles" "rules"
    then { c.bundles with rules := Bundles.standard.rules } else c.bundles
  general :=
    if leavesOut members "settings" "debounce_ms"
    then { c.general with debounce := ({} : General).debounce } else c.general }

/-- A section over that of the default configuration is read as it is alone, or as `f` says. -/
theorem overlay_of_section {α : Type} {read : Json → Option α} (read' : Json → Option α)
    {f : Json → α → α} {key : String} {default a : α} {members under : List (String × Json)}
    {index : Nat} (h : section? (.named members) index key default read = some a)
    (hread : ∀ v a, read v = some a → read' ((below key).overlay v) = some (f v a))
    (hc : lookup key under = some (below key)) (hd : read' (below key) = some default) :
    (section? (.named (overlayMembers under members)) index key default read') =
      some ((lookup key members).elim a (f · a)) := by
  rw [section?, Record.field?] at h ⊢
  rw [lookup_overlayMembers, hc]
  cases hk : lookup key members with
  | none =>
      rw [hk] at h
      exact hd.trans h
  | some v =>
      rw [hk] at h
      exact hread v a h

/-- The sections of a configuration are read from the members of one object. -/
structure ReadFrom (members : List (String × Json)) (c : Config) : Prop where
  package : section? (.named members) 0 "package" ({} : Config).package
    (Owner.ofJson? .single) = some c.package
  trees : section? (.named members) 1 "trees" ({} : Config).trees
    (treesOfJson? .single) = some c.trees
  resolve : section? (.named members) 2 "resolve" ({} : Config).resolve
    (resolveOfJson? .single) = some c.resolve
  bundles : section? (.named members) 3 "bundles" ({} : Config).bundles
    (Bundles.ofJson? .single) = some c.bundles
  merge : section? (.named members) 4 "append" ({} : Config).merge
    (mergeOfJson? .single) = some c.merge
  planFile : section? (.named members) 5 "output" ({} : Config).planFile
    (planFileOfJson? .single) = some c.planFile
  general : section? (.named members) 6 "settings" ({} : Config).general
    (General.ofJson? .single) = some c.general

variable {members : List (String × Json)} {c : Config}

theorem readFrom_of_ofJson? (h : Config.ofJson? .single (.object members) = some c) :
    ReadFrom members c := by
  obtain ⟨package, hpackage, h⟩ := Option.bind_eq_some_iff.mp h
  obtain ⟨trees, htrees, h⟩ := Option.bind_eq_some_iff.mp h
  obtain ⟨resolve, hresolve, h⟩ := Option.bind_eq_some_iff.mp h
  obtain ⟨bundles, hbundles, h⟩ := Option.bind_eq_some_iff.mp h
  obtain ⟨merge, hmerge, h⟩ := Option.bind_eq_some_iff.mp h
  obtain ⟨planFile, hplanFile, h⟩ := Option.bind_eq_some_iff.mp h
  obtain ⟨general, hgeneral, h⟩ := Option.bind_eq_some_iff.mp h
  obtain rfl := Option.some.inj h
  exact ⟨hpackage, htrees, hresolve, hbundles, hmerge, hplanFile, hgeneral⟩

/-- What a configuration is read from can be laid over the default configuration. -/
theorem ReadFrom.overlay (h : ReadFrom members c) :
    Config.ofJson? .layers ((({} : Config).toJson).overlay (.object members)) =
      some (c.laidOver members) := by
  have htrees' (v : Json) (a : List Tree) (h : treesOfJson? .single v = some a) :
      treesOfJson? .layers ((below "trees").overlay v) = some a := by
    rw [overlay_of_not_object rfl]
    exact treesOfJson?_layers h
  have hmerge' (v : Json) (a : Option Merge) (h : mergeOfJson? .single v = some a) :
      mergeOfJson? .layers ((below "append").overlay v) = some a := by
    rw [overlay_of_not_object rfl]
    exact mergeOfJson?_layers h
  rw [toJson, overlay_object]
  have hfields (members : List (String × Json)) :
      fields? .layers 7 (.object members) = some (.named members) := rfl
  rw [Config.ofJson?, hfields, Option.bind_eq_bind, Option.bind_some]
  dsimp only
  rw [overlay_of_section _ h.package (fun _ _ => Owner.ofJson?_overlay) rfl rfl,
    overlay_of_section _ h.trees htrees' rfl rfl,
    overlay_of_section _ h.resolve (fun _ _ => resolveOfJson?_overlay) rfl rfl,
    overlay_of_section _ h.bundles (fun _ _ => Bundles.ofJson?_overlay) rfl rfl,
    overlay_of_section _ h.merge hmerge' rfl rfl,
    overlay_of_section _ h.planFile (fun _ _ => planFileOfJson?_overlay) rfl rfl,
    overlay_of_section _ h.general (fun _ _ => General.ofJson?_overlay) rfl rfl]
  have hsame {α : Type} (given : Option Json) (a : α) : given.elim a (fun _ => a) = a := by
    cases given <;> rfl
  rw [hsame, hsame, hsame, hsame, hsame, laidOver, leavesOut, leavesOut]
  cases lookup "bundles" members <;> cases lookup "settings" members <;> rfl

/-! ## What makes a difference -/

theorem Bundles.rules_of_leavesOut {b : Bundles} (h : Bundles.ofJson? .single v = some b)
    (hl : v.leavesOut "rules") : b.rules = [] := by
  obtain ⟨r, hr, hb⟩ := Bundles.ofJson?_eq_some_iff.mp h
  have hrules := hb.rules
  rw [section?, Record.field?_eq_none (leavesOut_of_fields? hr ▸ hl)] at hrules
  exact (Option.some.inj hrules).symm

theorem General.debounce_of_leavesOut {g : General} (h : General.ofJson? .single v = some g)
    (hl : v.leavesOut "debounce_ms") : g.debounce = defaultDebounce := by
  obtain ⟨r, hr, hg⟩ := General.ofJson?_eq_some_iff.mp h
  have hdebounce := hg.debounce
  rw [Record.withDefault, Record.field?_eq_none (leavesOut_of_fields? hr ▸ hl)] at hdebounce
  exact (Option.some.inj hdebounce).symm

theorem exists_of_leavesOut {α : Type} {read : Json → Option α} {part key : String}
    {index : Nat} {default a : α} (h : section? (.named members) index part default read = some a)
    (hl : leavesOut members part key) : ∃ v, read v = some a ∧ v.leavesOut key := by
  rw [section?, Record.field?] at h
  rw [leavesOut] at hl
  cases hk : lookup part members with
  | none => simp [hk] at hl
  | some v =>
      rw [hk] at h hl
      exact ⟨v, h, hl⟩

/-- What is left out is missed exactly in these two places. -/
theorem ReadFrom.laidOver_eq_iff (h : ReadFrom members c) : c.laidOver members = c ↔
    leavesOut members "bundles" "rules" = false ∧
      leavesOut members "settings" "debounce_ms" = false := by
  constructor
  · intro he
    constructor
    · refine Bool.eq_false_iff.mpr fun hl => ?_
      obtain ⟨v, hv, hrules⟩ := exists_of_leavesOut h.bundles hl
      have hlaid := congrArg (·.bundles.rules) he
      simp only [laidOver, hl, if_true, Bundles.rules_of_leavesOut hv hrules] at hlaid
      cases hlaid
    · refine Bool.eq_false_iff.mpr fun hl => ?_
      obtain ⟨v, hv, hdebounce⟩ := exists_of_leavesOut h.general hl
      have hlaid := congrArg (·.general.debounce) he
      simp only [laidOver, hl, if_true, General.debounce_of_leavesOut hv hdebounce] at hlaid
      exact absurd hlaid (by decide)
  · rintro ⟨hbundles, hgeneral⟩
    rw [laidOver, hbundles, hgeneral, if_neg Bool.false_ne_true, if_neg Bool.false_ne_true]

end VendorBundle.Config
