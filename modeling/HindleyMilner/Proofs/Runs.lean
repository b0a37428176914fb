import HindleyMilner.Inference.Principal
import HindleyMilner.Proofs.Drawing

/-!
# Reasoning about runs

Rules for what a run of inference brings about, one for each operation and one for sequencing, so
that a proof about an algorithm follows its text. `Meets` speaks about one run. `InStep` speaks
about two: they end in related results or in related type errors. In both a run that exhausts its
supply owes nothing, which is how "as long as the counter does not overflow" enters.

Events play no part in what is inferred. A session is described by the rest of it, its supply and
its forest (`Session.Stands`).
-/

namespace HindleyMilner

/-- The supply and the forest of a session, whatever has been reported. -/
structure Session.Stands (s : Session) (mode : Supply.Mode) (n : Nat) (forest : Forest) : Prop where
  supply : s.supply = ⟨mode, n⟩
  forest : s.forest = forest

theorem Session.Stands.next_eq {s : Session} {mode mode' : Supply.Mode} {n n' : Nat}
    {forest forest' : Forest} (h : s.Stands mode n forest) (h' : s.Stands mode' n' forest') :
    n = n' :=
  congrArg Supply.next (h.supply.symm.trans h'.supply)

/-- The sessions differ at most in their events. -/
structure Session.Alike (s s' : Session) : Prop where
  supply : s'.supply = s.supply
  forest : s'.forest = s.forest

theorem Session.Alike.refl (s : Session) : s.Alike s := ⟨rfl, rfl⟩

theorem Session.Stands.alike {s s' : Session} {mode : Supply.Mode} {n : Nat} {forest : Forest}
    (hs : s.Stands mode n forest) (h : s.Alike s') : s'.Stands mode n forest :=
  ⟨h.supply.trans hs.supply, h.forest.trans hs.forest⟩

namespace Infer

variable {α β γ δ : Type}

/-! ### One run -/

/-- A result satisfies `Q` with the session it leaves, a type error satisfies `E`. -/
def Meets (Q : α → Session → Prop) (E : TypeError → Session → Prop) :
    Except Failure α × Session → Prop
  | (.ok a, s) => Q a s
  | (.error (.illTyped e), s) => E e s
  | (.error .exhausted, _) => True

theorem Meets.imp {Q Q' : α → Session → Prop} {E E' : TypeError → Session → Prop}
    {r : Except Failure α × Session} (h : Meets Q E r) (hresult : ∀ a s, Q a s → Q' a s)
    (herror : ∀ e s, E e s → E' e s) : Meets Q' E' r := by
  obtain ⟨⟨_ | _⟩ | a, s⟩ := r
  · exact herror _ _ h
  · trivial
  · exact hresult _ _ h

theorem Meets.imp_error {Q : α → Session → Prop} {E E' : TypeError → Session → Prop}
    {r : Except Failure α × Session} (h : Meets Q E r) (herror : ∀ e s, E e s → E' e s) :
    Meets Q E' r :=
  h.imp (fun _ _ hQ => hQ) herror

theorem Meets.and {Q Q' : α → Session → Prop} {E E' : TypeError → Session → Prop}
    {r : Except Failure α × Session} (h : Meets Q E r) (h' : Meets Q' E' r) :
    Meets (fun a s => Q a s ∧ Q' a s) E r := by
  obtain ⟨⟨_ | _⟩ | a, s⟩ := r
  · exact h
  · trivial
  · exact ⟨h, h'⟩

theorem Meets.exists_ok {Q : α → Session → Prop} {r : Except Failure α × Session}
    (h : Meets Q (fun _ _ => False) r) (hsupply : r.1 ≠ .error .exhausted) :
    ∃ a, r.1 = .ok a ∧ Q a r.2 := by
  obtain ⟨⟨_ | _⟩ | a, s⟩ := r
  · exact h.elim
  · exact absurd rfl hsupply
  · exact ⟨a, rfl, h⟩

theorem Meets.of_ok {Q : α → Session → Prop} {E : TypeError → Session → Prop}
    {r : Except Failure α × Session} {a : α} (h : Meets Q E r) (hr : r.1 = .ok a) : Q a r.2 := by
  obtain ⟨_, s⟩ := r
  cases hr
  exact h

theorem Meets.bind {P : α → Session → Prop} {Q : β → Session → Prop}
    {E : TypeError → Session → Prop} {x : Infer α} {f : α → Infer β} {s : Session}
    (hx : Meets P E (x s)) (hf : ∀ a s', P a s' → Meets Q E (f a s')) :
    Meets Q E ((x >>= f) s) := by
  rw [bind_apply]
  cases hrun : x s with
  | mk result s' =>
    rw [hrun] at hx
    cases result with
    | ok a => exact hf a s' hx
    | error failure =>
      cases failure with
      | illTyped e => exact hx
      | exhausted => trivial

theorem bind_eq_of_eq {x y : Infer α} {s : Session} (h : y s = x s) (f : α → Infer β) :
    (y >>= f) s = (x >>= f) s := by
  rw [bind_apply, bind_apply, h]

theorem Meets.bind_congr {P : α → Session → Prop} {E : TypeError → Session → Prop} {x y : Infer α}
    {f g : α → Infer β} {s : Session} (hx : Meets P E (x s)) (hxy : y s = x s)
    (hfg : ∀ a s', P a s' → g a s' = f a s') : (y >>= g) s = (x >>= f) s := by
  rw [bind_apply, bind_apply, hxy]
  cases hrun : x s with
  | mk result s' =>
    rw [hrun] at hx
    cases result with
    | ok a => exact hfg a s' hx
    | error failure => rfl

/-! ### Two runs -/

/-- Both runs end in results related by `P`, or both in type errors related by `E`. -/
def InStep (P : α → Session → β → Session → Prop)
    (E : TypeError → Session → TypeError → Session → Prop) :
    Except Failure α × Session → Except Failure β × Session → Prop
  | (.error .exhausted, _), _ => True
  | _, (.error .exhausted, _) => True
  | (.ok a, s), (.ok b, s') => P a s b s'
  | (.error (.illTyped e), s), (.error (.illTyped e'), s') => E e s e' s'
  | _, _ => False

theorem InStep.bind {P : α → Session → β → Session → Prop} {Q : γ → Session → δ → Session → Prop}
    {E : TypeError → Session → TypeError → Session → Prop} {x : Infer α} {y : Infer β}
    {f : α → Infer γ} {g : β → Infer δ} {s s' : Session} (h : InStep P E (x s) (y s'))
    (hnext : ∀ a s₁ b s₁', P a s₁ b s₁' → InStep Q E (f a s₁) (g b s₁')) :
    InStep Q E ((x >>= f) s) ((y >>= g) s') := by
  rw [bind_apply, bind_apply]
  cases hx : x s with
  | mk left s₁ =>
    cases hy : y s' with
    | mk right s₁' =>
      rw [hx, hy] at h
      rcases left with (e | _) | a <;> rcases right with (e' | _) | b
      · exact h
      · trivial
      · exact h.elim
      · trivial
      · trivial
      · trivial
      · exact h.elim
      · dsimp only
        rcases f a s₁ with ⟨(_ | _) | _, _⟩ <;> trivial
      · exact hnext a s₁ b s₁' h

theorem InStep.imp {P P' : α → Session → β → Session → Prop}
    {E : TypeError → Session → TypeError → Session → Prop} {r : Except Failure α × Session}
    {r' : Except Failure β × Session} (h : InStep P E r r')
    (himp : ∀ a s b s', P a s b s' → P' a s b s') : InStep P' E r r' := by
  rcases r with ⟨(_ | _) | a, s⟩
  · rcases r' with ⟨(_ | _) | b, s'⟩ <;> exact h
  · trivial
  · rcases r' with ⟨(_ | _) | b, s'⟩
    · exact h
    · trivial
    · exact himp a s b s' h

/-- A step of the first run alone that ends in no type error. -/
theorem InStep.bind_left {P : α → Session → Prop} {Q : γ → Session → δ → Session → Prop}
    {E : TypeError → Session → TypeError → Session → Prop} {x : Infer α} {f : α → Infer γ}
    {s : Session} {r : Except Failure δ × Session} (hx : Meets P (fun _ _ => False) (x s))
    (hnext : ∀ a s₁, P a s₁ → InStep Q E (f a s₁) r) : InStep Q E ((x >>= f) s) r := by
  rw [bind_apply]
  cases hrun : x s with
  | mk left s₁ =>
    rw [hrun] at hx
    rcases left with (e | _) | a
    · exact hx.elim
    · trivial
    · exact hnext a s₁ hx

/-- A step of the second run alone that ends in no type error. -/
theorem InStep.bind_right {P : β → Session → Prop} {Q : γ → Session → δ → Session → Prop}
    {E : TypeError → Session → TypeError → Session → Prop} {y : Infer β} {g : β → Infer δ}
    {s' : Session} {r : Except Failure γ × Session} (hy : Meets P (fun _ _ => False) (y s'))
    (hnext : ∀ b s₁', P b s₁' → InStep Q E r (g b s₁')) : InStep Q E r ((y >>= g) s') := by
  rw [bind_apply]
  cases hrun : y s' with
  | mk right s₁' =>
    rw [hrun] at hy
    rcases right with (e | _) | b
    · exact hy.elim
    · rcases r with ⟨(_ | _) | _, _⟩ <;> trivial
    · exact hnext b s₁' hy

theorem InStep.and_left {P : α → Session → β → Session → Prop}
    {E : TypeError → Session → TypeError → Session → Prop} {Q : α → Session → Prop}
    {E' : TypeError → Session → Prop} {r : Except Failure α × Session}
    {r' : Except Failure β × Session} (h : InStep P E r r') (hr : Meets Q E' r) :
    InStep (fun a s b s' => P a s b s' ∧ Q a s) E r r' := by
  rcases r with ⟨(_ | _) | _, _⟩
  · rcases r' with ⟨(_ | _) | _, _⟩ <;> exact h
  · trivial
  · rcases r' with ⟨(_ | _) | _, _⟩
    · exact h
    · trivial
    · exact ⟨h, hr⟩

/-- Two runs that are known one by one, and whose ends exclude each other unless they
are of one sort. -/
theorem InStep.of_meets {P : α → Session → Prop} {Q : β → Session → Prop}
    {R : α → Session → β → Session → Prop} {E₁ E₂ : TypeError → Session → Prop}
    {E : TypeError → Session → TypeError → Session → Prop} {r : Except Failure α × Session}
    {r' : Except Failure β × Session} (hx : Meets P E₁ r) (hy : Meets Q E₂ r')
    (hresults : ∀ a s b s', P a s → Q b s' → R a s b s')
    (herrors : ∀ e s e' s', E₁ e s → E₂ e' s' → E e s e' s')
    (hleft : ∀ a s e' s', P a s → ¬ E₂ e' s') (hright : ∀ e s b s', E₁ e s → ¬ Q b s') :
    InStep R E r r' := by
  rcases r with ⟨(e | _) | a, s⟩
  · rcases r' with ⟨(e' | _) | b, s'⟩
    · exact herrors e s e' s' hx hy
    · trivial
    · exact hright e s b s' hx hy
  · trivial
  · rcases r' with ⟨(e' | _) | b, s'⟩
    · exact hleft a s e' s' hx hy
    · trivial
    · exact hresults a s b s' hx hy

theorem InStep.exists_ok_iff {P : α → Session → β → Session → Prop}
    {E : TypeError → Session → TypeError → Session → Prop} {r : Except Failure α × Session}
    {r' : Except Failure β × Session} (h : InStep P E r r') (hsupply : r.1 ≠ .error .exhausted)
    (hsupply' : r'.1 ≠ .error .exhausted) :
    (∃ a, r.1 = .ok a) ↔ ∃ b, r'.1 = .ok b := by
  rcases r with ⟨(_ | _) | a, s⟩
  · rcases r' with ⟨(_ | _) | b, s'⟩
    · simp
    · exact absurd rfl hsupply'
    · exact h.elim
  · exact absurd rfl hsupply
  · rcases r' with ⟨(_ | _) | b, s'⟩
    · exact h.elim
    · exact absurd rfl hsupply'
    · simp

/-- What a run in step with one that does not exhaust its supply brings about. -/
theorem InStep.meets_right {P : α → Session → β → Session → Prop}
    {E : TypeError → Session → TypeError → Session → Prop} {r : Except Failure α × Session}
    {r' : Except Failure β × Session} (h : InStep P E r r') (hsupply : r.1 ≠ .error .exhausted) :
    Meets (fun b s' => ∃ a, P a r.2 b s') (fun e' s' => ∃ e, E e r.2 e' s') r' := by
  rcases r with ⟨(e | _) | a, s⟩
  · rcases r' with ⟨(e' | _) | b, s'⟩
    · exact ⟨e, h⟩
    · trivial
    · exact h.elim
  · exact absurd rfl hsupply
  · rcases r' with ⟨(e' | _) | b, s'⟩
    · exact h.elim
    · trivial
    · exact ⟨a, h⟩

theorem InStep.of_ok {P : α → Session → β → Session → Prop}
    {E : TypeError → Session → TypeError → Session → Prop} {r : Except Failure α × Session}
    {r' : Except Failure β × Session} {a : α} {b : β} (h : InStep P E r r') (hr : r.1 = .ok a)
    (hr' : r'.1 = .ok b) : P a r.2 b r'.2 := by
  obtain ⟨_, s⟩ := r
  obtain ⟨_, s'⟩ := r'
  cases hr
  cases hr'
  exact h

theorem InStep.symm {P : α → Session → β → Session → Prop}
    {E : TypeError → Session → TypeError → Session → Prop} {r : Except Failure α × Session}
    {r' : Except Failure β × Session} (h : InStep P E r r') :
    InStep (fun b s' a s => P a s b s') (fun e' s' e s => E e s e' s') r' r := by
  rcases r with ⟨(_ | _) | _, _⟩ <;> rcases r' with ⟨(_ | _) | _, _⟩ <;> exact h

/-- Two runs that are in step with a third one, which does not exhaust its supply, are in step
with each other. -/
theorem InStep.through {P : α → Session → γ → Session → Prop} {Q : β → Session → γ → Session → Prop}
    {R : α → Session → β → Session → Prop}
    {E₁ E₂ E : TypeError → Session → TypeError → Session → Prop} {r : Except Failure α × Session}
    {r' : Except Failure β × Session} {middle : Except Failure γ × Session}
    (h : InStep P E₁ r middle) (h' : InStep Q E₂ r' middle) (hsupply : middle.1 ≠ .error .exhausted)
    (hresults : ∀ a s b s' c s₁, P a s c s₁ → Q b s' c s₁ → R a s b s')
    (herrors : ∀ e s e' s' d s₁, E₁ e s d s₁ → E₂ e' s' d s₁ → E e s e' s') :
    InStep R E r r' := by
  rcases middle with ⟨(d | _) | c, s₁⟩
  · rcases r with ⟨(e | _) | a, s⟩
    · rcases r' with ⟨(e' | _) | b, s'⟩
      · exact herrors e s e' s' d s₁ h h'
      · trivial
      · exact h'.elim
    · trivial
    · exact h.elim
  · exact absurd rfl hsupply
  · rcases r with ⟨(e | _) | a, s⟩
    · exact h.elim
    · trivial
    · rcases r' with ⟨(e' | _) | b, s'⟩
      · exact h'.elim
      · trivial
      · exact hresults a s b s' c s₁ h h'

theorem InStep.ended {P : α → Session → β → Session → Prop}
    {E : TypeError → Session → TypeError → Session → Prop} {r : Except Failure α × Session}
    {r' : Except Failure β × Session} (h : InStep P E r r') (hsupply : r.1 ≠ .error .exhausted)
    (hsupply' : r'.1 ≠ .error .exhausted) :
    (∃ a b, r.1 = .ok a ∧ r'.1 = .ok b ∧ P a r.2 b r'.2) ∨
      ∃ e e', r.1 = .error (.illTyped e) ∧ r'.1 = .error (.illTyped e') ∧ E e r.2 e' r'.2 := by
  rcases r with ⟨(e | _) | a, s⟩
  · rcases r' with ⟨(e' | _) | b, s'⟩
    · exact .inr ⟨e, e', rfl, rfl, h⟩
    · exact absurd rfl hsupply'
    · exact h.elim
  · exact absurd rfl hsupply
  · rcases r' with ⟨(e' | _) | b, s'⟩
    · exact h.elim
    · exact absurd rfl hsupply'
    · exact .inl ⟨a, b, rfl, rfl, h⟩

/-- Both runs have ended in the same way, be it in a result, in a type error or for want of
variables, and in sessions that are alike. -/
structure Alike (r r' : Except Failure α × Session) : Prop where
  outcome : r'.1 = r.1
  sessions : r.2.Alike r'.2

theorem Alike.of_eq {r r' : Except Failure α × Session} (h : r' = r) : Alike r r' := by
  subst h
  exact ⟨rfl, .refl _⟩

theorem Alike.bind {P : α → Session → Prop} {E : TypeError → Session → Prop} {x x' : Infer α}
    {f f' : α → Infer β} {s s' : Session} (h : Alike (x s) (x' s')) (hx : Meets P E (x s))
    (hnext : ∀ a s₁ s₁', P a s₁ → s₁.Alike s₁' → Alike (f a s₁) (f' a s₁')) :
    Alike ((x >>= f) s) ((x' >>= f') s') := by
  obtain ⟨houtcome, hsessions⟩ := h
  rw [bind_apply, bind_apply]
  generalize x s = r at houtcome hsessions hx ⊢
  generalize x' s' = r' at houtcome hsessions ⊢
  obtain ⟨answer, s₁⟩ := r
  obtain ⟨answer', s₁'⟩ := r'
  obtain rfl : answer = answer' := houtcome.symm
  cases answer with
  | error e => exact ⟨rfl, hsessions⟩
  | ok a => exact hnext a s₁ s₁' hx hsessions

/-- What the second of two runs that end alike brings about is true of the first one, but for the
events. -/
theorem Alike.meets {Q : α → Session → Prop} {E : TypeError → Session → Prop}
    {r r' : Except Failure α × Session} (h : Alike r r') (hr' : Meets Q E r') :
    Meets (fun a s => ∃ s', s.Alike s' ∧ Q a s') (fun _ _ => True) r := by
  obtain ⟨houtcome, hsessions⟩ := h
  obtain ⟨answer, s⟩ := r
  obtain ⟨answer', s'⟩ := r'
  obtain rfl : answer = answer' := houtcome.symm
  rcases answer with (e | _) | a
  · trivial
  · trivial
  · exact ⟨s', hsessions, hr'⟩

/-! ### The operations -/

section Operations

variable {s : Session} {mode : Supply.Mode} {n : Nat} {forest : Forest}
  {E : TypeError → Session → Prop}

theorem meets_report (event : Log.Event) (hs : s.Stands mode n forest) :
    Meets (fun _ s' => s'.Stands mode n forest) E (report event s) :=
  ⟨hs.supply, hs.forest⟩

theorem get_apply (s : Session) : (get : Infer Session) s = (.ok s, s) := rfl

theorem draw_apply (d : Draw α) (s : Session) :
    draw d s =
      match d s.supply with
      | none => (.error .exhausted, s)
      | some (a, supply) => (.ok a, { s with supply }) := by
  rw [draw, bind_apply, get_apply]
  dsimp only
  cases d s.supply <;> rfl

theorem meets_draw (d : Draw α) (s : Session) :
    Meets (fun a s' => ∃ supply, d s.supply = some (a, supply) ∧ s' = { s with supply }) E
      (draw d s) := by
  rw [draw_apply]
  cases hdraw : d s.supply with
  | none => trivial
  | some drawn => exact ⟨drawn.2, rfl, rfl⟩

theorem meets_fresh (hmode : mode ≠ .shared) (hs : s.Stands mode n forest) :
    Meets (fun t s' => t = .var n ∧ s'.Stands mode (n + 1) forest) E (fresh s) := by
  have hdraw : Meets (fun v s' => v = n ∧ s'.Stands mode (n + 1) forest) E (draw Draw.fresh s) := by
    rw [draw_apply, hs.supply]
    cases hfresh : Draw.fresh ⟨mode, n⟩ with
    | none => trivial
    | some drawn =>
      obtain ⟨v, supply⟩ := drawn
      obtain ⟨rfl, rfl⟩ := Supply.fresh_eq_some hmode hfresh
      exact ⟨rfl, rfl, hs.forest⟩
  refine hdraw.bind fun v s' hv => ?_
  exact ⟨congrArg Ty.var hv.1, hv.2⟩

theorem meets_lookup {Γ : Context} {name : String} (hmode : mode ≠ .shared)
    (hs : s.Stands mode n forest) (hunbound : Γ.get? name = none → E (.unbound name) s) :
    Meets (fun t s' => ∃ σ, Γ.get? name = some σ ∧ t = σ.opened n ∧
      s'.Stands mode (n + σ.binders.size) forest) E (lookup Γ name s) := by
  rw [lookup]
  cases hget : Γ.get? name with
  | none => exact hunbound hget
  | some σ =>
    dsimp only
    rw [draw_apply, hs.supply]
    cases hdraw : σ.instantiate ⟨mode, n⟩ with
    | none => trivial
    | some drawn =>
      obtain ⟨t, supply⟩ := drawn
      obtain ⟨rfl, rfl⟩ := Scheme.instantiate_eq_some hmode hdraw
      exact ⟨σ, rfl, rfl, rfl, hs.forest⟩

theorem meets_reserve (Γ : Context) (hs : s.Stands mode n forest) :
    Meets (fun _ s' => ∃ n', s'.Stands mode n' forest ∧ n ≤ n' ∧ ∀ v ∈ Γ.bodyVars, v < n') E
      (draw Γ.reserve s) := by
  rw [draw_apply, hs.supply]
  cases hreserve : Γ.reserve ⟨mode, n⟩ with
  | none => trivial
  | some drawn =>
    obtain ⟨_, mode', n'⟩ := drawn
    obtain ⟨rfl, hle, hbound⟩ := Context.reserve_eq_some hreserve
    exact ⟨n', ⟨rfl, hs.forest⟩, hle, hbound⟩

theorem meets_mgu {a b : Ty} (hs : s.Stands mode n forest)
    (herror : ∀ e, a.mgu b = .error e → E e s) :
    Meets (fun u s' => a.mgu b = .ok u ∧ s'.Stands mode n forest) E (mgu a b s) := by
  rw [mgu]
  cases hmgu : a.mgu b with
  | error e => exact herror e hmgu
  | ok u => exact ⟨rfl, hs⟩

theorem meets_concludeW {form : Term.Form} {S : Subst} {t : Ty} {Q : Subst × Ty → Session → Prop}
    (hs : s.Stands mode n forest) (hQ : ∀ s', s'.Stands mode n forest → Q (S, t) s') :
    Meets Q E (Context.concludeW form S t s) :=
  hQ _ ⟨hs.supply, hs.forest⟩

theorem meets_concludeJ {form : Term.Form} {t : Ty} {Q : Ty → Session → Prop}
    (hs : s.Stands mode n forest) (hQ : ∀ s', s'.Stands mode n forest → Q t s') :
    Meets Q E (Context.concludeJ form t s) :=
  hQ _ ⟨hs.supply, hs.forest⟩

theorem meets_get (hs : s.Stands mode n forest) :
    Meets (fun r s' => r.forest = forest ∧ s'.Stands mode n forest) E ((get : Infer Session) s) :=
  ⟨hs.forest, hs⟩

/-- A run whose type error is taken as a value is the run itself, read off its outcome. -/
theorem meets_outcome (x : Infer α) (s : Session) :
    Meets (fun r s' => x s = (r.mapError .illTyped, s')) E (outcome x s) := by
  rw [outcome]
  rcases x s with ⟨(e | _) | a, s'⟩
  · rfl
  · trivial
  · rfl

theorem meets_clearForest (hs : s.Stands mode n forest) :
    Meets (fun _ s' => s'.Stands mode n ∅) E (clearForest s) :=
  ⟨hs.supply, rfl⟩

theorem meets_find (t : Ty) (hs : s.Stands mode n forest) :
    Meets (fun r s' => r = (forest.find t).1 ∧ s'.Stands mode n (forest.find t).2) E
      (find t s) := by
  have hfind : find t s = (.ok (s.forest.find t).1, { s with forest := (s.forest.find t).2 }) := rfl
  rw [hfind, hs.forest]
  exact ⟨rfl, hs.supply, rfl⟩

theorem meets_unify {a b : Ty} (hs : s.Stands mode n forest)
    (herror : ∀ e s', (forest.unify a b).outcome = .error e →
      s'.Stands mode n (forest.unify a b).forest → E e s') :
    Meets (fun _ s' => (forest.unify a b).outcome = .ok () ∧
      s'.Stands mode n (forest.unify a b).forest) E (unify a b s) := by
  rw [unify, bind_apply, get_apply]
  dsimp only
  rw [hs.forest, bind_apply]
  cases houtcome : (forest.unify a b).outcome with
  | error e => exact herror e _ houtcome ⟨hs.supply, rfl⟩
  | ok _ => exact ⟨rfl, hs.supply, rfl⟩

end Operations

end Infer

end HindleyMilner
