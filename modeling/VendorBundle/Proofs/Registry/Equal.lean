import VendorBundle.Proofs.Registry.Order
import VendorBundle.Proofs.Text.Split

/-!
# Versions that compare equal

Two texts compare equal exactly when they are read as the same version: their parts are the same
numbers and the same texts, whatever stands behind the first plus sign. So the order is one of the
versions that are read, and texts that compare equal can stand for each other in it.
-/

namespace VendorBundle

namespace VersionPart

/-- Parts that compare equal are equal as soon as numbers and other texts do not compare equal. -/
theorem lawfulEqCmp_compareWith {mixed : Ordering} (h : mixed ≠ .eq) :
    Std.LawfulEqCmp (compareWith mixed) :=
  have := transCmp_compareWith h
  { eq_of_compare := fun {a b} hab => by
      cases a with
      | number n =>
          cases b with
          | number n' => rw [Std.LawfulEqOrd.eq_of_compare (α := Nat) hab]
          | text t' => exact absurd hab h
      | text t =>
          cases b with
          | number n' => exact absurd (Ordering.swap_eq_eq.mp hab) h
          | text t' => rw [Std.LawfulEqOrd.eq_of_compare (α := String) hab] }

instance : Std.LawfulEqCmp (compareWith .gt) := lawfulEqCmp_compareWith nofun

instance : Std.LawfulEqCmp (compareWith .lt) := lawfulEqCmp_compareWith nofun

end VersionPart

namespace Version

instance (mixed : Ordering) [Std.LawfulEqCmp (VersionPart.compareWith mixed)] :
    Std.LawfulEqCmp (compareParts mixed) :=
  compareParts_eq mixed ▸ inferInstance

instance : Std.LawfulEqCmp comparePrereleases where
  eq_of_compare {a b} hab := by
    cases a with
    | none =>
        cases b with
        | none => rfl
        | some bs => exact absurd hab nofun
    | some as =>
        cases b with
        | none => exact absurd hab nofun
        | some bs =>
            have hparts : compareParts .lt as bs = .eq := hab
            rw [Std.LawfulEqCmp.eq_of_compare hparts]

instance : Std.LawfulEqCmp Version.compare where
  eq_of_compare {a b} hab := by
    obtain ⟨release, prerelease⟩ := a
    obtain ⟨release', prerelease'⟩ := b
    obtain ⟨hrelease, hprerelease⟩ : compareParts .gt release release' = .eq ∧
        comparePrereleases prerelease prerelease' = .eq := Ordering.then_eq_eq.mp hab
    rw [Std.LawfulEqCmp.eq_of_compare hrelease, Std.LawfulEqCmp.eq_of_compare hprerelease]

/-- What follows a plus sign is not read. -/
theorem ofText_append_plus (front rest : String) :
    ofText (front ++ "+" ++ rest) = ofText front := by
  have htext : (front ++ "+" ++ rest).toList = front.toList ++ '+' :: rest.toList := by
    simp [String.toList_append]
  rw [ofText, ofText, htext]
  cases hcut : Text.cut? '+' front.toList with
  | none => rw [Text.cut?_append (Text.cut?_eq_none_iff.mp hcut)]
  | some parts => rw [Text.cut?_append_of_some hcut]

end Version

theorem compareVersions_eq_iff {a b : String} :
    compareVersions a b = .eq ↔ Version.ofText a = Version.ofText b :=
  @Std.LawfulEqCmp.compare_eq_iff_eq _ Version.compare _ _ _

/-- The order of versions on any three texts: each equals itself, the order goes both ways, and is
transitive, with a strict step on either side making the whole strict. Texts compare equal exactly
when they are read as one version; this is an equivalence, it keeps all comparisons, and whatever
follows a plus sign makes no difference to it. -/
theorem compareVersions_preorder (a b c : String) :
    compareVersions a a = .eq ∧
    compareVersions b a = (compareVersions a b).swap ∧
    ((compareVersions a b).isLE → (compareVersions b c).isLE →
      (compareVersions a c).isLE ∧
      (compareVersions a b = .lt ∨ compareVersions b c = .lt → compareVersions a c = .lt)) ∧
    Equivalence (fun s t => compareVersions s t = .eq) ∧
    (compareVersions a b = .eq ↔ Version.ofText a = Version.ofText b) ∧
    (compareVersions a b = .eq → compareVersions a c = compareVersions b c) ∧
    ∀ rest, compareVersions (a ++ "+" ++ rest) a = .eq ∧
      compareVersions (a ++ "+" ++ rest) b = compareVersions a b := by
  have hequal : ∀ s t, compareVersions s t = .eq ↔ Version.ofText s = Version.ofText t :=
    fun _ _ => compareVersions_eq_iff
  refine ⟨Std.ReflCmp.compare_self, Std.OrientedCmp.eq_swap, fun hab hbc => ⟨?_, ?_⟩, ?_,
    hequal a b, fun hab => ?_, fun rest => ⟨?_, ?_⟩⟩
  · exact Std.TransCmp.isLE_trans hab hbc
  · rintro (hlt | hlt)
    · exact Std.TransCmp.lt_of_lt_of_isLE hlt hbc
    · exact Std.TransCmp.lt_of_isLE_of_lt hab hlt
  · exact ⟨fun s => (hequal s s).mpr rfl, fun {s t} h => (hequal t s).mpr ((hequal s t).mp h).symm,
      fun {s t u} h h' => (hequal s u).mpr (((hequal s t).mp h).trans ((hequal t u).mp h'))⟩
  · rw [compareVersions, compareVersions, (hequal a b).mp hab]
  · exact (hequal _ a).mpr (Version.ofText_append_plus a rest)
  · rw [compareVersions, compareVersions, Version.ofText_append_plus]

end VendorBundle
