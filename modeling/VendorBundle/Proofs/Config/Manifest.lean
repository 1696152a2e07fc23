import VendorBundle.Config.Load
import VendorBundle.Files.Memory
import VendorBundle.Proofs.Config.Layers

/-!
# Configurations in manifests

A loader that finds its configuration in a manifest, and nothing in the environment, reads what the
field says over the default configuration. This is the configuration that the value of the field
makes alone, unless that value leaves out the rules of its bundles or the time that a watch waits.
-/

namespace VendorBundle

open Json (lookup overlay_nothing)

/-- Variables whose names are not those of settings set nothing. -/
theorem Environment.settings_of_others {environment : List (String × String)}
    (h : ∀ v ∈ environment, keys? v.1 = none) : settings environment = .object [] := by
  rw [settings]
  generalize Json.object [] = seen
  induction environment with
  | nil => rfl
  | cons v environment ih =>
      obtain ⟨hv, hrest⟩ := List.forall_mem_cons.mp h
      obtain ⟨name, text⟩ := v
      simp only [List.foldl_cons, hv]
      exact ih hrest

namespace ConfigLoader

variable {σ : Type} [Files σ] {files : σ} {root : Path} {text : String}
  {doc members : List (String × Json)} {environment : List (String × String)} {config : Config}

theorem find?_manifest (hfile : Files.isFile files (root.join "autodep.toml") = false)
    (htext : Files.readText files (root.join "package.json") = .ok text)
    (hparse : Json.parse? text = some (.object doc))
    (hfield : lookup ConfigSource.manifestField doc = some (.object members)) :
    ConfigSource.find? files root = some ⟨root.join "package.json", .manifest⟩ := by
  have hmanifest : ConfigSource.inManifest files (root.join "package.json") = true := by
    simp only [ConfigSource.inManifest, htext, hparse, Option.bind_some, Json.get?, hfield]
  simp only [ConfigSource.find?, hfile, hmanifest, if_true, if_neg Bool.false_ne_true]

/-- What a loader finds in the manifest of a project is what the field says alone, laid over the
default configuration. -/
theorem extract_manifest (hfile : Files.isFile files (root.join "autodep.toml") = false)
    (htext : Files.readText files (root.join "package.json") = .ok text)
    (hparse : Json.parse? text = some (.object doc))
    (hfield : lookup ConfigSource.manifestField doc = some (.object members))
    (henv : ∀ v ∈ environment, Environment.keys? v.1 = none)
    (hread : Config.ReadFrom members config) :
    extract files { root, environment } =
      .ok ⟨config.laidOver members, some ⟨root.join "package.json", .manifest⟩⟩ := by
  have hlayer : ConfigSource.layer? files ⟨root.join "package.json", .manifest⟩ =
      some (.object members) := by
    simp only [ConfigSource.layer?, htext, ConfigSource.layer?.object?, hparse, Option.map_some,
      Json.get?, hfield]
  have hnothing (v : List (String × Json)) :
      (((({} : Config).toJson.overlay (.object v)).overlay (.object [])).overlay (.object [])) =
        ({} : Config).toJson.overlay (.object v) := by
    rw [Config.toJson, Json.overlay_object, overlay_nothing, overlay_nothing]
  have hlayers : layers? files { root, environment } (some ⟨root.join "package.json", .manifest⟩) =
      some (({} : Config).toJson.overlay (.object members)) := by
    rw [layers?, Environment.settings_of_others henv]
    simp only [hlayer, Option.map_some]
    exact congrArg some (hnothing members)
  have hsource : source? files { root, environment } =
      .ok (some ⟨root.join "package.json", .manifest⟩) :=
    congrArg Except.ok (find?_manifest hfile htext hparse hfield)
  simp only [extract, hsource, bind, Except.bind, hlayers, Option.bind_some, hread.overlay]
  rfl

/-- When the field alone makes a configuration, a loader finds one in the manifest. It is the same
one exactly when the field does not give bundles without rules, or settings without the time that a
watch waits, as objects. -/
theorem extract_manifest_agrees_iff
    (hfile : Files.isFile files (root.join "autodep.toml") = false)
    (htext : Files.readText files (root.join "package.json") = .ok text)
    (hparse : Json.parse? text = some (.object doc))
    (hfield : lookup ConfigSource.manifestField doc = some (.object members))
    (henv : ∀ v ∈ environment, Environment.keys? v.1 = none)
    (hread : Config.ofJson? .single (.object members) = some config) :
    ∃ loaded, extract files { root, environment } = .ok loaded ∧
      loaded.source = some ⟨root.join "package.json", .manifest⟩ ∧
      loaded.config = config.laidOver members ∧
      (loaded.config = config ↔ Config.leavesOut members "bundles" "rules" = false ∧
        Config.leavesOut members "settings" "debounce_ms" = false) := by
  have hsections := Config.readFrom_of_ofJson? hread
  exact ⟨_, extract_manifest hfile htext hparse hfield henv hsections, rfl, rfl,
    hsections.laidOver_eq_iff⟩

/-! ## A project with a manifest -/

namespace OneManifest

def project (manifest : String) : Memory :=
  (Memory.empty ⟨"/"⟩).addFile ⟨"/app/package.json"⟩ manifest.toUTF8

def loader : ConfigLoader := { root := ⟨"/app"⟩, environment := [("HOME", "/root")] }

/-- Settings with the time that a watch waits. -/
def timed : List (String × Json) :=
  [("settings", .object [("token_mode", "content"), ("debounce_ms", .ofNat 5)])]

def timedText : String :=
  "\x7b\"autodep\":\x7b\"settings\":\x7b\"token_mode\":\"content\",\"debounce_ms\":5\x7d\x7d\x7d"

/-- Settings without it. -/
def untimed : List (String × Json) := [("settings", .object [("token_mode", "content")])]

def untimedText : String :=
  "\x7b\"autodep\":\x7b\"settings\":\x7b\"token_mode\":\"content\"\x7d\x7d\x7d"

/-- Bundles without rules. -/
def unruled : List (String × Json) := [("bundles", .object [("names", .strings ["app"])])]

def unruledText : String :=
  "\x7b\"autodep\":\x7b\"bundles\":\x7b\"names\":[\"app\"]\x7d\x7d\x7d"

theorem extract_timed :
    Files.isFile (project timedText) (loader.root.join "autodep.toml") = false ∧
      Files.readText (project timedText) (loader.root.join "package.json") = .ok timedText ∧
      Json.parse? timedText = some (.object [("autodep", .object timed)]) ∧
      (∀ v ∈ loader.environment, Environment.keys? v.1 = none) ∧
      ∃ config loaded, Config.ofJson? .single (.object timed) = some config ∧
        extract (project timedText) loader = .ok loaded ∧ loaded.config = config := by
  have hfile : Files.isFile (project timedText) (loader.root.join "autodep.toml") = false := by
    decide +kernel
  have htext : Files.readText (project timedText) (loader.root.join "package.json") =
      .ok timedText := by decide +kernel
  have hparse : Json.parse? timedText = some (.object [("autodep", .object timed)]) := rfl
  have henv : ∀ v ∈ loader.environment, Environment.keys? v.1 = none := by decide +kernel
  have hread : Config.ofJson? .single (.object timed) =
      some { general := { tokenMode := .content, debounce := 5 } } := by decide +kernel
  obtain ⟨loaded, hloaded, -, -, hiff⟩ :=
    extract_manifest_agrees_iff hfile htext hparse rfl henv hread
  exact ⟨hfile, htext, hparse, henv, _, loaded, hread, hloaded, hiff.mpr ⟨rfl, rfl⟩⟩

/-- A watch does not wait, and a rule that nobody has written makes the bundles invalid. -/
theorem extract_differs :
    (Config.ofJson? .single (.object untimed) =
        some { general := { tokenMode := .content, debounce := 200 } } ∧
      Json.parse? untimedText = some (.object [("autodep", .object untimed)]) ∧
      (extract (project untimedText) loader).toOption.map (·.config) =
        some { general := { tokenMode := .content, debounce := 0 } }) ∧
    (Config.ofJson? .single (.object unruled) = some { bundles := { names := ["app"] } } ∧
      ({ bundles := { names := ["app"] } } : Config).check = .ok () ∧
      Json.parse? unruledText = some (.object [("autodep", .object unruled)]) ∧
      (extract (project unruledText) loader).toOption.map (·.config) =
        some { bundles := { names := ["app"], rules := [⟨"tests/", "tests"⟩] } } ∧
      ({ bundles := { names := ["app"], rules := [⟨"tests/", "tests"⟩] } } : Config).check =
        .error (.undeclaredBundle (.rule "tests/") "tests" ["app"])) :=
  ⟨⟨by decide +kernel, rfl, by decide +kernel⟩, by decide +kernel, by decide +kernel, rfl,
    by decide +kernel, by decide +kernel⟩

end OneManifest

end ConfigLoader

end VendorBundle
