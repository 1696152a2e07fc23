import VendorBundle.Version

/-!
# The order of versions

Any texts whatever are ordered as versions: the order goes both ways and is transitive. Numbers
stand all on one side of the other parts, lists of parts compare from the front, and a release comes
after all its prereleases.
-/

namespace VendorBundle

theorem transCmp_comap {α β : Type} (cmp : β → β → Ordering) [Std.TransCmp cmp] (f : α → β) :
    Std.TransCmp fun a b => cmp (f a) (f b) where
  eq_swap {a b} := @Std.OrientedCmp.eq_swap _ cmp _ (f a) (f b)
  isLE_trans {a b c} := @Std.TransCmp.isLE_trans _ cmp _ (f a) (f b) (f c)

namespace VersionPart

theorem compareWith_swap (mixed : Ordering) (a b : VersionPart) :
    compareWith mixed a b = (compareWith mixed b a).swap := by
  cases a with
  | number n =>
      cases b with
      | number n' => exact Std.OrientedOrd.eq_swap
      | text t' => exact (Ordering.swap_swap).symm
  | text t =>
      cases b with
      | number n' => rfl
      | text t' => exact Std.OrientedOrd.eq_swap

/-- Parts are ordered as soon as numbers and other texts do not compare equal. -/
theorem transCmp_compareWith {mixed : Ordering} (h : mixed ≠ .eq) :
    Std.TransCmp (compareWith mixed) where
  eq_swap := compareWith_swap mixed _ _
  isLE_trans {a b c} hab hbc := by
    -- From one kind of part to the other and back there is no way up.
    have hback : mixed.isLE → mixed.swap.isLE → False := by
      cases mixed with
      | lt => exact fun _ hs => absurd hs (by decide)
      | eq => exact absurd rfl h
      | gt => exact fun hm => absurd hm (by decide)
    cases a with
    | number n =>
        cases b with
        | number n' =>
            cases c with
            | number n'' => exact Std.TransOrd.isLE_trans (α := Nat) hab hbc
            | text t'' => exact hbc
        | text t' =>
            cases c with
            | number n'' => exact (hback hab hbc).elim
            | text t'' => exact hab
    | text t =>
        cases b with
        | number n' =>
            cases c with
            | number n'' => exact hab
            | text t'' => exact (hback hbc hab).elim
        | text t' =>
            cases c with
            | number n'' => exact hbc
            | text t'' => exact Std.TransOrd.isLE_trans (α := String) hab hbc

instance : Std.TransCmp (compareWith .gt) := transCmp_compareWith nofun

instance : Std.TransCmp (compareWith .lt) := transCmp_compareWith nofun

end VersionPart

namespace Version

theorem compareParts_eq (mixed : Ordering) :
    compareParts mixed = List.compareLex (VersionPart.compareWith mixed) := by
  funext as bs
  induction as generalizing bs with
  | nil => cases bs <;> rfl
  | cons a as ih =>
      cases bs with
      | nil => rfl
      | cons b bs => rw [compareParts, ih, List.compareLex_cons_cons]

instance (mixed : Ordering) [Std.TransCmp (VersionPart.compareWith mixed)] :
    Std.TransCmp (compareParts mixed) :=
  compareParts_eq mixed ▸ inferInstance

instance : Std.TransCmp comparePrereleases where
  eq_swap {a b} := by
    cases a with
    | none => cases b <;> rfl
    | some as =>
        cases b with
        | none => rfl
        | some bs => exact @Std.OrientedCmp.eq_swap _ (compareParts .lt) _ as bs
  isLE_trans {a b c} hab hbc := by
    cases c with
    | none => cases a <;> rfl
    | some cs =>
        cases b with
        | none => exact absurd hbc nofun
        | some bs =>
            cases a with
            | none => exact absurd hab nofun
            | some as => exact @Std.TransCmp.isLE_trans _ (compareParts .lt) _ as bs cs hab hbc

/-- The order of versions puts the order of releases before that of prereleases. -/
theorem compare_eq : Version.compare = compareLex (fun a b => compareParts .gt a.release b.release)
    fun a b => comparePrereleases a.prerelease b.prerelease := rfl

instance : Std.TransCmp Version.compare :=
  have : Std.TransCmp fun a b : Version => compareParts .gt a.release b.release :=
    transCmp_comap (compareParts .gt) release
  have : Std.TransCmp fun a b : Version => comparePrereleases a.prerelease b.prerelease :=
    transCmp_comap comparePrereleases prerelease
  compare_eq ▸ inferInstance

end Version

instance : Std.TransCmp compareVersions := transCmp_comap Version.compare Version.ofText

end VendorBundle
