import Mathlib.Data.Option.Basic
import VendorBundle.Bundle.Policy
import VendorBundle.Merge.Options
import VendorBundle.Package
import VendorBundle.Proofs.Json.Forms

/-!
# Options and entries are read back

For each record, which of its members may be left out, and what stands for them then.
-/

namespace VendorBundle

open Json

/-! ## Entries of a listing -/

instance : LawfulForm EntryKind := ⟨fun kind => by cases kind <;> rfl⟩

instance {depth : Nat} : PlainForm EntryKind depth :=
  ⟨fun kind => by cases kind <;> exact .string _⟩

namespace ChangeToken

variable {members : List (String × Json)} {items : List Json} {v : Json} {r : Record}

/-! ### Reading each kind -/

theorem ofJson?_stat_object (h : lookup "type" members = some (.string "stat")) :
    (ofJson? (.object members) : Option ChangeToken) =
      ((Record.named members).required 0 "size").bind fun size =>
        ((Record.named members).optional 1 "modified").bind fun modified =>
          some (.stat size modified) := by
  simp only [ofJson?, h]
  rfl

theorem ofJson?_stat_array :
    (ofJson? (.array (.string "stat" :: items)) : Option ChangeToken) =
      ((Record.listed items).required 0 "size").bind fun size =>
        ((Record.listed items).optional 1 "modified").bind fun modified =>
          (guard (items.length ≤ 2) : Option Unit).bind fun _ => some (.stat size modified) := rfl

theorem ofJson?_content_object (h : lookup "type" members = some (.string "content")) :
    (ofJson? (.object members) : Option ChangeToken) =
      ((Record.named members).required 0 "hash").bind fun hash => some (.content hash) := by
  simp only [ofJson?, h]
  rfl

theorem ofJson?_directory_object (h : lookup "type" members = some (.string "directory")) :
    (ofJson? (.object members) : Option ChangeToken) = some .directory := by
  simp only [ofJson?, h]
  rfl

theorem ofJson?_object_of_unknown (hstat : lookup "type" members ≠ some (.string "stat"))
    (hcontent : lookup "type" members ≠ some (.string "content"))
    (hdirectory : lookup "type" members ≠ some (.string "directory")) :
    (ofJson? (.object members) : Option ChangeToken) = none := by
  simp only [ofJson?]
  cases hkind : lookup "type" members with
  | none => rfl
  | some kind =>
      rw [hkind] at hstat hcontent hdirectory
      simp only [Option.bind_eq_bind, Option.bind_some]
      split <;> simp_all

/-! ### The form of a token -/

theorem ofJson?_of_gives_stat {size : UInt64} {modified : Option UInt64}
    (hr : Record.ofJson? 3 v = some r) (h : r.Gives (written (stat size modified))) :
    ofJson? v = some (stat size modified) := by
  have hnull : ∀ n : UInt64, toJson n ≠ .null := fun n hn => by cases hn
  cases v with
  | object members =>
      obtain rfl := Option.some.inj hr
      have hsize : (Record.named members).required 0 "size" = some size :=
        Record.required_of_field? (h 1 _ rfl)
      have hmodified : (Record.named members).optional 1 "modified" = some modified :=
        Record.optional_of_field? hnull (h 2 _ rfl)
      rw [ofJson?_stat_object (h 0 _ rfl), hsize, hmodified]
      rfl
  | array items =>
      obtain ⟨hl, hr⟩ := Option.ite_none_right_eq_some.mp hr
      obtain rfl := Option.some.inj hr
      obtain rfl := h.items_eq hl
      have hsize : (Record.listed [toJson size, toJson modified]).required 0 "size" = some size :=
        Record.required_of_field? rfl
      have hmodified :
          (Record.listed [toJson size, toJson modified]).optional 1 "modified" = some modified :=
        Record.optional_of_field? hnull rfl
      change ofJson? (.array [.string "stat", toJson size, toJson modified]) = _
      rw [ofJson?_stat_array, hsize, hmodified]
      rfl
  | _ => cases hr

theorem ofJson?_of_gives_content {hash : String} (hr : Record.ofJson? 2 v = some r)
    (h : r.Gives (written (content hash))) : ofJson? v = some (content hash) := by
  cases v with
  | object members =>
      obtain rfl := Option.some.inj hr
      have hhash : (Record.named members).required 0 "hash" = some hash :=
        Record.required_of_field? (h 1 _ rfl)
      rw [ofJson?_content_object (h 0 _ rfl), hhash]
      rfl
  | array items =>
      obtain ⟨hl, hr⟩ := Option.ite_none_right_eq_some.mp hr
      obtain rfl := Option.some.inj hr
      rw [h.items_eq hl]
      rfl
  | _ => cases hr

theorem ofJson?_of_gives_directory (hr : Record.ofJson? 1 v = some r)
    (h : r.Gives (written directory)) : ofJson? v = some directory := by
  cases v with
  | object members =>
      obtain rfl := Option.some.inj hr
      exact ofJson?_directory_object (h 0 _ rfl)
  | array items =>
      obtain ⟨hl, hr⟩ := Option.ite_none_right_eq_some.mp hr
      obtain rfl := Option.some.inj hr
      rw [h.items_eq hl]
      rfl
  | _ => cases hr

theorem recordForm : RecordForm ChangeToken [("modified", .null)] where
  toJson_eq token := by cases token <;> rfl
  nodup token := by
    cases token with
    | stat size modified => exact (by decide : ["type", "size", "modified"].Nodup)
    | content hash => exact (by decide : ["type", "hash"].Nodup)
    | directory => exact (by decide : ["type"].Nodup)
  ofJson?_of_gives token {v r} hr h := by
    cases token with
    | stat size modified => exact ofJson?_of_gives_stat hr h
    | content hash => exact ofJson?_of_gives_content hr h
    | directory => exact ofJson?_of_gives_directory hr h
  ofJson?_missing members := by
    have htype : lookup "type" ([("modified", .null)] ++ members) = lookup "type" members := by
      rw [lookup_append]
      exact Option.or_none
    by_cases hstat : lookup "type" members = some (.string "stat")
    · rw [ofJson?_stat_object (htype.trans hstat), ofJson?_stat_object hstat,
        Record.required_missing rfl, Record.optional_missing rfl]
    by_cases hcontent : lookup "type" members = some (.string "content")
    · rw [ofJson?_content_object (htype.trans hcontent), ofJson?_content_object hcontent,
        Record.required_missing rfl]
    by_cases hdirectory : lookup "type" members = some (.string "directory")
    · rw [ofJson?_directory_object (htype.trans hdirectory), ofJson?_directory_object hdirectory]
    · rw [ofJson?_object_of_unknown hstat hcontent hdirectory,
        ofJson?_object_of_unknown (htype ▸ hstat) (htype ▸ hcontent) (htype ▸ hdirectory)]

end ChangeToken

instance : LawfulForm ChangeToken := ChangeToken.recordForm.lawful

instance {depth : Nat} : PlainForm ChangeToken (depth + 1) where
  plain token := by cases token <;> exact .object (by simp [Plain.string])

theorem Entry.recordForm : RecordForm Entry [] where
  toJson_eq _ := rfl
  nodup _ := (by decide : ["path", "kind", "token"].Nodup)
  ofJson?_of_gives e {v r} hr h := by
    have hpath : r.required 0 "path" = some e.path := Record.required_of_field? (h 0 _ rfl)
    have hkind : r.required 1 "kind" = some e.kind := Record.required_of_field? (h 1 _ rfl)
    have htoken : r.required 2 "token" = some e.token := Record.required_of_field? (h 2 _ rfl)
    refine Option.bind_eq_some_iff.mpr ⟨r, hr, ?_⟩
    rw [hpath, hkind, htoken]
    rfl
  ofJson?_missing _ := rfl

instance : LawfulForm Entry := Entry.recordForm.lawful

instance {depth : Nat} : PlainForm Entry (depth + 2) :=
  ⟨fun _ => .object (by simp [Plain.string])⟩

/-! ## Options -/

instance : LawfulForm TokenMode := ⟨fun mode => by cases mode <;> rfl⟩

instance {depth : Nat} : PlainForm TokenMode depth :=
  ⟨fun mode => by cases mode <;> exact .string _⟩

theorem ListOptions.recordForm : RecordForm ListOptions
    [("tokenMode", "stat"), ("ignore", .strings ["node_modules", ".git"])] where
  toJson_eq _ := rfl
  nodup _ := (by decide : ["tokenMode", "ignore"].Nodup)
  ofJson?_of_gives o {v r} hr h := by
    have htokenMode : r.withDefault 0 "tokenMode" ({} : ListOptions).tokenMode = some o.tokenMode :=
      Record.withDefault_of_field? (h 0 _ rfl) _
    have hignore : r.withDefault 1 "ignore" ({} : ListOptions).ignore = some o.ignore :=
      Record.withDefault_of_field? (h 1 _ rfl) _
    refine Option.bind_eq_some_iff.mpr ⟨r, hr, ?_⟩
    dsimp only
    rw [htokenMode, hignore]
    rfl
  ofJson?_missing members := by
    simp only [ofJson?, Record.ofJson?, Option.bind_eq_bind, Option.bind_some]
    rw [Record.withDefault_missing rfl, Record.withDefault_missing rfl]

instance : LawfulForm ListOptions := ListOptions.recordForm.lawful

instance {depth : Nat} : PlainForm ListOptions (depth + 2) := ⟨fun _ => .object (by simp)⟩

theorem ResolveOptions.recordForm : RecordForm ResolveOptions
    [("extensions", .strings ["js", "mjs", "cjs", "json"]),
      ("mainFields", .strings ["browser", "module", "main"])] where
  toJson_eq _ := rfl
  nodup _ := (by decide : ["extensions", "mainFields"].Nodup)
  ofJson?_of_gives o {v r} hr h := by
    have hextensions : r.withDefault 0 "extensions" ({} : ResolveOptions).extensions =
        some o.extensions := Record.withDefault_of_field? (h 0 _ rfl) _
    have hmainFields : r.withDefault 1 "mainFields" ({} : ResolveOptions).mainFields =
        some o.mainFields := Record.withDefault_of_field? (h 1 _ rfl) _
    refine Option.bind_eq_some_iff.mpr ⟨r, hr, ?_⟩
    dsimp only
    rw [hextensions, hmainFields]
    rfl
  ofJson?_missing members := by
    simp only [ofJson?, Record.ofJson?, Option.bind_eq_bind, Option.bind_some]
    rw [Record.withDefault_missing rfl, Record.withDefault_missing rfl]

instance : LawfulForm ResolveOptions := ResolveOptions.recordForm.lawful

instance {depth : Nat} : PlainForm ResolveOptions (depth + 2) := ⟨fun _ => .object (by simp)⟩

theorem BundleRule.recordForm : RecordForm BundleRule [] where
  toJson_eq _ := rfl
  nodup _ := (by decide : ["prefix", "bundle"].Nodup)
  ofJson?_of_gives rule {v r} hr h := by
    have hstart : r.required 0 "prefix" = some rule.pathStart :=
      Record.required_of_field? (h 0 _ rfl)
    have hbundle : r.required 1 "bundle" = some rule.bundle :=
      Record.required_of_field? (h 1 _ rfl)
    refine Option.bind_eq_some_iff.mpr ⟨r, hr, ?_⟩
    rw [hstart, hbundle]
    rfl
  ofJson?_missing _ := rfl

instance : LawfulForm BundleRule := BundleRule.recordForm.lawful

instance {depth : Nat} : PlainForm BundleRule (depth + 1) :=
  ⟨fun _ => .object (by simp [Plain.string])⟩

theorem BundlePolicy.recordForm : RecordForm BundlePolicy
    [("rules", .array []), ("treeKinds", .object [])] where
  toJson_eq _ := rfl
  nodup _ := (by decide : ["names", "rules", "treeKinds", "defaultBundle"].Nodup)
  ofJson?_of_gives p {v r} hr h := by
    have hnames : r.required 0 "names" = some p.names := Record.required_of_field? (h 0 _ rfl)
    have hrules : r.withDefault 1 "rules" [] = some p.rules :=
      Record.withDefault_of_field? (h 1 _ rfl) _
    have htreeKinds : r.withDefault 2 "treeKinds" ∅ = some p.treeKinds :=
      Record.withDefault_of_field? (h 2 _ rfl) _
    have hdefault : r.required 3 "defaultBundle" = some p.defaultBundle :=
      Record.required_of_field? (h 3 _ rfl)
    refine Option.bind_eq_some_iff.mpr ⟨r, hr, ?_⟩
    rw [hnames, hrules, htreeKinds, hdefault]
    rfl
  ofJson?_missing members := by
    simp only [ofJson?, Record.ofJson?, Option.bind_eq_bind, Option.bind_some]
    rw [Record.required_missing rfl, Record.withDefault_missing rfl,
      Record.withDefault_missing rfl, Record.required_missing rfl]

instance : LawfulForm BundlePolicy := BundlePolicy.recordForm.lawful

instance {depth : Nat} : PlainForm BundlePolicy (depth + 3) :=
  ⟨fun _ => .object (by simp [Plain.string])⟩

theorem Package.recordForm : RecordForm Package [] where
  toJson_eq _ := rfl
  nodup _ := (by decide : ["name", "version", "root", "fileExtensions", "aliases", "exclude"].Nodup)
  ofJson?_of_gives p {v r} hr h := by
    have hname : r.required 0 "name" = some p.name := Record.required_of_field? (h 0 _ rfl)
    have hversion : r.required 1 "version" = some p.version := Record.required_of_field? (h 1 _ rfl)
    have hroot : r.required 2 "root" = some p.root := Record.required_of_field? (h 2 _ rfl)
    have hextensions : r.required 3 "fileExtensions" = some p.fileExtensions :=
      Record.required_of_field? (h 3 _ rfl)
    have haliases : r.required 4 "aliases" = some p.aliases := Record.required_of_field? (h 4 _ rfl)
    have hexclude : r.required 5 "exclude" = some p.exclude := Record.required_of_field? (h 5 _ rfl)
    refine Option.bind_eq_some_iff.mpr ⟨r, hr, ?_⟩
    rw [hname, hversion, hroot, hextensions, haliases, hexclude]
    rfl
  ofJson?_missing _ := rfl

instance : LawfulForm Package := Package.recordForm.lawful

instance {depth : Nat} : PlainForm Package (depth + 2) :=
  ⟨fun _ => .object (by simp [Plain.string])⟩

theorem MergeOptions.recordForm : RecordForm MergeOptions
    [("mappings", .object []), ("passthrough", .object []),
      ("listOptions", toJson ({} : ListOptions))] where
  toJson_eq _ := rfl
  nodup _ := (by decide : ["upstreamDir", "generatedDir", "outputDir", "mappings", "passthrough",
    "listOptions"].Nodup)
  ofJson?_of_gives o {v r} hr h := by
    have hbuilt : r.required 0 "upstreamDir" = some o.builtDir :=
      Record.required_of_field? (h 0 _ rfl)
    have hgenerated : r.required 1 "generatedDir" = some o.generatedDir :=
      Record.required_of_field? (h 1 _ rfl)
    have houtput : r.required 2 "outputDir" = some o.outputDir :=
      Record.required_of_field? (h 2 _ rfl)
    have hmappings : r.withDefault 3 "mappings" ∅ = some o.mappings :=
      Record.withDefault_of_field? (h 3 _ rfl) _
    have hpassthrough : r.withDefault 4 "passthrough" ∅ = some o.passthrough :=
      Record.withDefault_of_field? (h 4 _ rfl) _
    have hlistOptions : r.withDefault 5 "listOptions" {} = some o.listOptions :=
      Record.withDefault_of_field? (h 5 _ rfl) _
    refine Option.bind_eq_some_iff.mpr ⟨r, hr, ?_⟩
    rw [hbuilt, hgenerated, houtput, hmappings, hpassthrough, hlistOptions]
    rfl
  ofJson?_missing members := by
    simp only [ofJson?, Record.ofJson?, Option.bind_eq_bind, Option.bind_some]
    rw [Record.required_missing rfl, Record.required_missing rfl, Record.required_missing rfl,
      Record.withDefault_missing rfl, Record.withDefault_missing rfl,
      Record.withDefault_missing rfl]

instance : LawfulForm MergeOptions := MergeOptions.recordForm.lawful

instance {depth : Nat} : PlainForm MergeOptions (depth + 3) := ⟨fun _ => .object (by simp)⟩

/-! ## Reading back -/

/-- What is written of a value is read as that value: as JSON, as text, as an object that holds the
members in any order, with others beside them or without the `missing` ones, and as an array of
their values. So what was read of any JSON can be written and read again. -/
structure ReadsBack (α : Type) [JsonForm α] (missing : List (String × Json)) : Prop where
  value (a : α) : ofJson? (toJson a) = some a
  text (a : α) : (parse? (toJson a).render).bind ofJson? = some a
  again (v : Json) (a : α) : ofJson? v = some a → ofJson? (toJson a) = some a
  object (a : α) (members : List (String × Json)) :
    (∀ m ∈ written a, lookup m.1 (missing ++ members) = some m.2) →
      ofJson? (.object members) = some a
  array (a : α) : ofJson? (.array ((written a).map (·.2))) = some a

theorem RecordForm.readsBack {α : Type} [JsonForm α] [LawfulForm α] [PlainForm α 127]
    {missing : List (String × Json)} (h : RecordForm α missing) : ReadsBack α missing where
  value := ofJson?_toJson
  text := ofJson?_render
  again _ a _ := ofJson?_toJson a
  object a _ hm := h.ofJson?_object a hm
  array := h.ofJson?_array

theorem readsBack_options_and_entries :
    ReadsBack Package [] ∧
      ReadsBack MergeOptions [("mappings", .object []), ("passthrough", .object []),
        ("listOptions", toJson ({} : ListOptions))] ∧
      ReadsBack ListOptions [("tokenMode", "stat"), ("ignore", .strings ["node_modules", ".git"])] ∧
      ReadsBack ResolveOptions [("extensions", .strings ["js", "mjs", "cjs", "json"]),
        ("mainFields", .strings ["browser", "module", "main"])] ∧
      ReadsBack BundlePolicy [("rules", .array []), ("treeKinds", .object [])] ∧
      ReadsBack Entry [] ∧
      ReadsBack ChangeToken [("modified", .null)] :=
  ⟨Package.recordForm.readsBack, MergeOptions.recordForm.readsBack,
    ListOptions.recordForm.readsBack, ResolveOptions.recordForm.readsBack,
    BundlePolicy.recordForm.readsBack, Entry.recordForm.readsBack,
    ChangeToken.recordForm.readsBack⟩

end VendorBundle
