import HindleyMilner.Proofs.Forest.Refinement

/-!
# What a forest knows it never forgets

A request to a forest registers types and adds links, and takes none away. That is so for a
unification that fails as well, wherever it stops. In a forest with more links, a type and what it
resolved to before cannot be told apart (`Grows.resolve_resolve`). So everything that resolves alike
goes on to do so, whatever is asked of the forest later and however it ends.
-/

namespace HindleyMilner.Forest

variable {f g h : Forest} {t u : Ty}

/-! ### Finding -/

theorem WellFormed.find (hf : f.WellFormed) (t : Ty) : (f.find t).2.WellFormed := hf.register t

theorem WellFormed.resolve_find (hf : f.WellFormed) (t u : Ty) :
    (f.find t).2.resolve u = f.resolve u :=
  hf.resolve_register t u

/-- What has been found for a type resolves to what the type resolves to. -/
theorem WellFormed.resolve_found (hf : f.WellFormed) (t : Ty) :
    (f.find t).2.resolve (f.find t).1 = f.resolve t := by
  show (f.register t).resolve ((f.register t).rep t) = f.resolve t
  rw [(hf.register t).resolve_rep, hf.resolve_register]

private theorem grows_find (f : Forest) (t : Ty) : f.Grows (f.find t).2 :=
  fun u _ hparent => (parent?_register f t u).trans hparent

/-- What is left in a resolved type is found again as it is. -/
theorem WellFormed.find_of_mem_vars_resolve (hf : f.WellFormed) {v : Nat}
    (hv : v ∈ (f.resolve t).vars) : (f.find (.var v)).1 = .var v :=
  (hf.rep_register (.var v) (.var v)).trans (rep_of_root (hf.root_of_mem_vars_resolve hv))

/-! ### More links -/

theorem Grows.refl (f : Forest) : f.Grows f := fun _ _ hparent => hparent

theorem Grows.trans (hfg : f.Grows g) (hgh : g.Grows h) : f.Grows h :=
  fun t u hparent => hgh t u (hfg t u hparent)

theorem Grows.resolve_resolve (hgrows : f.Grows g) (hf : f.WellFormed) (hg : g.WellFormed)
    (t : Ty) : g.resolve (f.resolve t) = g.resolve t := by
  -- The induction goes along the links and components of the smaller forest, all of which the
  -- larger one has.
  induction t using hf.induction with
  | h t ih =>
    cases t with
    | int => rw [hf.resolve_int]
    | bool => rw [hf.resolve_bool]
    | var v =>
      cases hparent : f.parent? (.var v) with
      | none => rw [hf.resolve_of_root hparent]
      | some u =>
        rw [hf.resolve_of_parent hparent, ih u (.parent hparent),
          hg.resolve_of_parent (hgrows _ u hparent)]
    | fn a b => rw [hf.resolve_fn, hg.resolve_fn, ih a (.dom a b), ih b (.cod a b), hg.resolve_fn]

theorem Grows.resolve_eq (hgrows : f.Grows g) (hf : f.WellFormed) (hg : g.WellFormed)
    (heq : f.resolve t = f.resolve u) : g.resolve t = g.resolve u := by
  rw [← hgrows.resolve_resolve hf hg t, heq, hgrows.resolve_resolve hf hg u]

/-! ### Requests -/

/-- What can be asked of a forest and may change it. -/
inductive Request where
  | find (t : Ty)
  | unify (a b : Ty)
  deriving DecidableEq, Repr

/-- The forest that a request leaves, whether it succeeds or not. -/
def perform (f : Forest) : Request → Forest
  | .find t => (f.find t).2
  | .unify a b => (f.unify a b).forest

def performAll (f : Forest) (requests : List Request) : Forest := requests.foldl perform f

theorem WellFormed.perform (hf : f.WellFormed) (request : Request) :
    (f.perform request).WellFormed ∧ f.Grows (f.perform request) := by
  cases request with
  | find t => exact ⟨hf.find t, f.grows_find t⟩
  | unify a b => exact ⟨(hf.unify_refines a b).wellFormed, (hf.unify_refines a b).grows⟩

theorem WellFormed.performAll (hf : f.WellFormed) (requests : List Request) :
    (f.performAll requests).WellFormed ∧ f.Grows (f.performAll requests) := by
  induction requests generalizing f with
  | nil => exact ⟨hf, .refl f⟩
  | cons request rest ih =>
    obtain ⟨hfirst, hgrows⟩ := hf.perform request
    obtain ⟨hlast, hgrows'⟩ := ih hfirst
    exact ⟨hlast, hgrows.trans hgrows'⟩

/-- Knowledge only grows. Resolving is final until the next link: a resolved type resolves to
itself, the variables left in it represent themselves, and finding changes nothing. Whatever is
asked of the forest after that, even if it fails halfway, a type resolves to what its resolved form
resolves to, and types that resolve alike go on to do so. -/
theorem Reachable.performAll_keeps (hreachable : f.Reachable) (requests : List Request) :
    (∀ t, f.resolve (f.resolve t) = f.resolve t) ∧
      (∀ t, ∀ v ∈ (f.resolve t).vars, (f.find (.var v)).1 = .var v) ∧
      (∀ t u, (f.find t).2.resolve u = f.resolve u) ∧
      (∀ t, (f.find t).2.resolve (f.find t).1 = f.resolve t) ∧
      (∀ t, (f.performAll requests).resolve (f.resolve t) = (f.performAll requests).resolve t) ∧
      ∀ t u, f.resolve t = f.resolve u →
        (f.performAll requests).resolve t = (f.performAll requests).resolve u := by
  have hf := hreachable.wellFormed
  obtain ⟨hlast, hgrows⟩ := hf.performAll requests
  refine ⟨hf.resolve_resolve, fun t v hv => hf.find_of_mem_vars_resolve hv, hf.resolve_find,
    hf.resolve_found, hgrows.resolve_resolve hf hlast, ?_⟩
  intro t u heq
  exact hgrows.resolve_eq hf hlast heq

/-- A variable below a function, and another variable below the first. -/
def chained : Forest :=
  ((∅ : Forest).unify (.var 0) (.fn (.var 1) (.var 2))).forest.unify (.var 3) (.var 0) |>.forest

/-- The first request fails, but not before it has put `Bool` in for a component of the function. -/
def failing : List Request :=
  [.unify (.fn (.var 1) .int) (.fn .bool .bool), .find (.fn (.var 3) (.var 1))]

theorem performAll_keeps_failing :
    chained.Reachable ∧ (chained.unify (.fn (.var 1) .int) (.fn .bool .bool)).outcome =
      .error (.mismatch .int .bool) ∧
      chained.resolve (.var 3) = .fn (.var 1) (.var 2) ∧
        (chained.performAll failing).resolve (.fn (.var 1) (.var 2)) = .fn .bool (.var 2) ∧
      (chained.performAll failing).resolve (.var 3) = .fn .bool (.var 2) ∧
      (chained.performAll failing).resolve (.var 3) =
        (chained.performAll failing).resolve (.var 0) := by
  have hreachable : chained.Reachable := .unify (.unify .empty _ _) _ _
  have hresolved : chained.resolve (.var 3) = .fn (.var 1) (.var 2) := rfl
  have hlater :
      (chained.performAll failing).resolve (.fn (.var 1) (.var 2)) = .fn .bool (.var 2) := rfl
  obtain ⟨-, -, -, -, hthrough, hkept⟩ := hreachable.performAll_keeps failing
  refine ⟨hreachable, rfl, hresolved, hlater, ?_, hkept (.var 3) (.var 0) rfl⟩
  rw [← hthrough (.var 3), hresolved, hlater]

end HindleyMilner.Forest
