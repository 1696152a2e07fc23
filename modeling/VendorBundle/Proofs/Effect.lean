import VendorBundle.Files

/-!
# Outcomes of effects

An effect is determined by the result and the state it ends with from each state. What holds for
sequences follows from what holds for the parts.
-/

namespace VendorBundle.Effect

variable {σ ε ε' α β : Type}

/-- A sequence of results is one when both parts are. -/
theorem bind_eq_ok_iff {x : Except ε α} {f : α → Except ε β} {b : β} :
    x >>= f = .ok b ↔ ∃ a, x = .ok a ∧ f a = .ok b := by
  cases x with
  | ok a => exact ⟨fun h => ⟨a, rfl, h⟩, fun ⟨_, ha, h⟩ => Except.ok.inj ha ▸ h⟩
  | error e => exact ⟨nofun, fun ⟨_, ha, _⟩ => absurd ha nofun⟩

/-- The members of a list are all read, one after the other, when each of them can be. -/
theorem mapM_eq_some_iff {α β : Type} {f : α → Option β} {items : List α} {results : List β} :
    items.mapM f = some results ↔
      (∀ a ∈ items, (f a).isSome) ∧ results = items.filterMap f := by
  induction items generalizing results with
  | nil => exact ⟨fun h => ⟨nofun, (Option.some.inj h).symm⟩, fun h => congrArg some h.2.symm⟩
  | cons a items ih =>
      rw [List.mapM_cons, List.forall_mem_cons]
      cases hf : f a with
      | none => simp
      | some b =>
          simp only [Option.bind_eq_bind, Option.bind_some, Option.bind_eq_some_iff, ih,
            List.filterMap_cons_some hf, Option.isSome_some, true_and]
          constructor
          · rintro ⟨rest, ⟨hall, rfl⟩, hr⟩
            exact ⟨hall, (Option.some.inj hr).symm⟩
          · rintro ⟨hall, rfl⟩
            exact ⟨_, ⟨hall, rfl⟩, rfl⟩

/-- The result of an effect and the state it ends in. -/
def outcome (e : Effect σ ε α) (s : σ) : Except ε α × σ := e.run.run s

/-! ## Outcomes -/

@[simp] theorem outcome_pure (a : α) (s : σ) :
    outcome (pure a : Effect σ ε α) s = (.ok a, s) := rfl

@[simp] theorem outcome_throw (e : ε) (s : σ) :
    outcome (throw e : Effect σ ε α) s = (.error e, s) := rfl

@[simp] theorem outcome_get (s : σ) : outcome (get : Effect σ ε σ) s = (.ok s, s) := rfl

@[simp] theorem outcome_set (s s' : σ) :
    outcome (set s' : Effect σ ε PUnit) s = (.ok ⟨⟩, s') := rfl

theorem outcome_bind (x : Effect σ ε α) (f : α → Effect σ ε β) (s : σ) :
    outcome (x >>= f) s = match outcome x s with
      | (.ok a, t) => outcome (f a) t
      | (.error e, t) => (.error e, t) := by
  change (ExceptT.bindCont f (outcome x s).1).run (outcome x s).2 = _
  rcases outcome x s with ⟨_ | _, t⟩ <;> rfl

theorem outcome_bind_of_ok {x : Effect σ ε α} {s t : σ} {a : α} (h : outcome x s = (.ok a, t))
    (f : α → Effect σ ε β) : outcome (x >>= f) s = outcome (f a) t := by
  rw [outcome_bind, h]

theorem outcome_bind_of_error {x : Effect σ ε α} {s t : σ} {e : ε}
    (h : outcome x s = (.error e, t)) (f : α → Effect σ ε β) :
    outcome (x >>= f) s = (.error e, t) := by
  rw [outcome_bind, h]

/-- A sequence succeeds when its parts do, one after the other. -/
theorem outcome_bind_eq_ok_iff {x : Effect σ ε α} {f : α → Effect σ ε β} {s s' : σ} {b : β} :
    outcome (x >>= f) s = (.ok b, s') ↔
      ∃ a t, outcome x s = (.ok a, t) ∧ outcome (f a) t = (.ok b, s') := by
  rw [outcome_bind]
  constructor
  · intro h
    split at h
    · rename_i a t hx
      exact ⟨a, t, hx, h⟩
    · simp at h
  · rintro ⟨a, t, hx, hf⟩
    rw [hx]
    exact hf

@[simp] theorem outcome_look (f : σ → Except ε α) (s : σ) :
    outcome (Files.look f) s = (f s, s) := by
  rw [Files.look, outcome_bind_of_ok (outcome_get s)]
  cases f s <;> rfl

@[simp] theorem outcome_adapt (g : ε → ε') (x : Effect σ ε α) (s : σ) :
    outcome (x.adapt g) s = ((outcome x s).1.mapError g, (outcome x s).2) := by
  rfl

/-! ## What every outcome keeps -/

/-- Whatever the result, the state before and the state after are related. -/
def Keeps (r : σ → σ → Prop) (e : Effect σ ε α) : Prop := ∀ s, r s (outcome e s).2

variable {r : σ → σ → Prop}

theorem Keeps.related {x : Effect σ ε α} (h : Keeps r x) {s s' : σ} {result : Except ε α}
    (ho : outcome x s = (result, s')) : r s s' := by
  have hs := h s
  rwa [ho] at hs

theorem Keeps.bind (ht : ∀ {a b c}, r a b → r b c → r a c) {x : Effect σ ε α}
    {f : α → Effect σ ε β} (hx : Keeps r x) (hf : ∀ a, Keeps r (f a)) : Keeps r (x >>= f) := by
  intro s
  rw [outcome_bind]
  have h := hx s
  split
  · rename_i a t hxs
    rw [hxs] at h
    exact ht h (hf a t)
  · rename_i e t hxs
    rwa [hxs] at h

theorem Keeps.adapt {x : Effect σ ε α} (hx : Keeps r x) (g : ε → ε') : Keeps r (x.adapt g) :=
  fun s => by simpa using hx s

section

variable (hrefl : ∀ s, r s s)

include hrefl

theorem Keeps.pure (a : α) : Keeps r (pure a : Effect σ ε α) := hrefl

theorem Keeps.get : Keeps r (get : Effect σ ε σ) := hrefl

theorem Keeps.look (f : σ → Except ε α) : Keeps r (Files.look f) := fun s => by
  rw [outcome_look]
  exact hrefl s

theorem Keeps.mapM (ht : ∀ {a b c}, r a b → r b c → r a c) {f : α → Effect σ ε β}
    (h : ∀ a, Keeps r (f a)) (items : List α) : Keeps r (items.mapM f) := by
  induction items with
  | nil => exact .pure hrefl []
  | cons a items ih =>
      rw [List.mapM_cons]
      exact .bind (r := r) ht (h a) fun b => .bind (r := r) ht ih fun bs => .pure hrefl _

end

/-! ## What every error satisfies -/

/-- Whatever is thrown, from any state, satisfies `p`. -/
def Throws (p : ε → Prop) (x : Effect σ ε α) : Prop :=
  ∀ s e s', outcome x s = (.error e, s') → p e

variable {p : ε → Prop}

theorem Throws.of_ok {x : Effect σ ε α} (h : ∀ s, ∃ a s', outcome x s = (.ok a, s')) :
    Throws p x := by
  intro s e s' ho
  obtain ⟨a, t, ha⟩ := h s
  rw [ha] at ho
  cases ho

theorem Throws.pure (a : α) : Throws p (pure a : Effect σ ε α) := .of_ok fun s => ⟨a, s, rfl⟩

theorem Throws.throw {e : ε} (h : p e) : Throws p (throw e : Effect σ ε α) := by
  rintro s _ s' ⟨⟩
  exact h

theorem Throws.bind {x : Effect σ ε α} {f : α → Effect σ ε β} (hx : Throws p x)
    (hf : ∀ a, Throws p (f a)) : Throws p (x >>= f) := by
  intro s e s' ho
  rw [outcome_bind] at ho
  split at ho
  · rename_i a t _
    exact hf a t e s' ho
  · rename_i e' t hxs
    cases ho
    exact hx s e s' hxs

theorem Throws.foldlM {f : β → α → Effect σ ε β} (hf : ∀ b a, Throws p (f b a)) (as : List α)
    (b : β) : Throws p (as.foldlM f b) := by
  induction as generalizing b with
  | nil => exact .pure b
  | cons a as ih =>
      rw [List.foldlM_cons]
      exact (hf b a).bind ih

end VendorBundle.Effect
