import HindleyMilner.Proofs.Forest.Course
import HindleyMilner.Proofs.Forest.Growth
import HindleyMilner.Proofs.Substituting.Relevance

/-!
# What errors say

Either algorithm ends in an error only with good reason. A name is reported as unbound if it is the
first of the free names of the term, in the order in which they are looked up, that the context does
not bind. Two types are reported as different if their outermost constructors are, and a type is
reported as infinite if it is a function that the variable occurs in.

A run walks through the free names of its term in one order, whatever it does in between, so
the names that it misses add up like the names themselves (`Infer.Blames.bind`). An answer then
means that no name was missed. Nothing here depends on the supply, which may even repeat
itself. The forest can be any that requests have led to, one that a failed unification has left
half done included.
-/

namespace HindleyMilner

/-- What an error may say where the names listed in `missing` have no binding. -/
def TypeError.Genuine (missing : List String) : TypeError → Prop
  | unbound name => missing.head? = some name
  | mismatch left right => left.Clash right
  | infinite v t => t.head? = some .fn ∧ v ∈ t.vars

/-- Names that would be looked up later make no difference. -/
theorem TypeError.Genuine.append {e : TypeError} {missing : List String} (h : e.Genuine missing)
    (later : List String) : e.Genuine (missing ++ later) := by
  cases e with
  | unbound name =>
    have hfirst : missing.head? = some name := h
    simp [Genuine, List.head?_append, hfirst]
  | mismatch left right => exact h
  | infinite v t => exact h

/-! ### Errors of unification -/

theorem Ty.Unifies.genuine {a b : Ty} {r : Except TypeError Subst} {e : TypeError}
    {missing : List String} (h : Unifies a b r) (herror : r = .error e) :
    e.Genuine missing := by
  induction h with
  | int | bool | same | left | right | fn => cases herror
  | infiniteLeft hoccurs | infiniteRight hoccurs =>
    cases herror
    exact ⟨rfl, hoccurs⟩
  | clash hclash =>
    cases herror
    exact hclash
  | domains hdom ih => exact ih herror
  | codomains hdom hcod ihdom ihcod => exact ihcod herror

namespace Forest

variable {f : Forest} {a b : Ty} {e : TypeError} {missing : List String}

/-- A link is refused only below a function: a variable does not occur in a base type, and is linked
to another variable without a question. -/
theorem WellFormed.genuine_of_link (hf : f.WellFormed) {v : Nat} {target : Ty}
    (hlink : f.link v target = .error e) : e.Genuine missing := by
  cases target with
  | int => simp [link, Ty.isVar, hf.resolve_int] at hlink
  | bool => simp [link, Ty.isVar, hf.resolve_bool] at hlink
  | var w => simp [link, Ty.isVar] at hlink
  | fn a b =>
    simp only [link, Ty.isVar, hf.resolve_fn] at hlink
    split at hlink
    · cases hlink
    · split at hlink
      next hoccurs =>
        cases hlink
        exact ⟨rfl, hoccurs⟩
      · cases hlink

private theorem WellFormed.genuine_of_ofLink (hf : f.WellFormed) {v : Nat} {target x y : Ty}
    (herror : (Attempt.ofLink x y f (f.link v target)).outcome = .error e) : e.Genuine missing := by
  cases hlink : f.link v target with
  | ok linked =>
    rw [hlink] at herror
    cases herror
  | error e' =>
    rw [hlink] at herror
    cases herror
    exact hf.genuine_of_link hlink

theorem Unifies.genuine {attempt : Attempt} (h : Unifies f a b attempt) (hf : f.WellFormed)
    (herror : attempt.outcome = .error e) : e.Genuine missing := by
  induction h with
  | same hsame => cases herror
  | left ha hb hne => exact (hf.enter _ _).genuine_of_ofLink herror
  | right ha hhead hb => exact (hf.enter _ _).genuine_of_ofLink herror
  | clash ha hb hclash =>
    cases herror
    exact hclash
  | domains ha hb hne hfirst hfails ih => exact ih (hf.enter _ _) herror
  | components ha hb hne hfirst hok hsecond ihfirst ihsecond =>
    exact ihsecond (hfirst.wellFormed (hf.enter _ _)) herror

end Forest

/-! ### The names that a context does not bind -/

namespace Context

variable {Γ : Context} {names : List String}

/-- Those of the listed names that have no binding. -/
def missing (Γ : Context) (names : List String) : List String :=
  names.filter fun x => (Γ.get? x).isNone

theorem mem_missing {x : String} : x ∈ Γ.missing names ↔ x ∈ names ∧ Γ.get? x = none := by
  simp [missing]

private theorem missing_append (Γ : Context) (names others : List String) :
    Γ.missing (names ++ others) = Γ.missing names ++ Γ.missing others :=
  List.filter_append names others

/-- A substitution changes types, never what is bound. -/
theorem missing_subst (Γ : Context) (S : Subst) (names : List String) :
    (Γ.subst S).missing names = Γ.missing names := by
  simp [missing]

private theorem missing_insert (Γ : Context) (x : String) (σ : Scheme) (names : List String) :
    missing (Γ.insert x σ) names = Γ.missing (names.filter (· ≠ x)) := by
  rw [missing, missing, List.filter_filter]
  congr 1
  funext y
  rw [OrderedMap.get?_insert]
  by_cases heq : x = y
  · simp [heq]
  · simp [heq, Ne.symm heq]

end Context

/-! ### One run -/

namespace Infer

variable {α β : Type} {s : Session} {missing later : List String}

/-- A run that goes through names of which `missing` have no binding: it answers only if there are
none, and otherwise its error is genuine. -/
def Blames (missing : List String) (r : Except Failure α × Session) : Prop :=
  Meets (fun _ s' => missing = [] ∧ s'.forest.WellFormed) (fun e _ => e.Genuine missing) r

theorem Blames.bind {x : Infer α} {f : α → Infer β} (hx : Blames missing (x s))
    (hf : ∀ a s', s'.forest.WellFormed → Blames later (f a s')) :
    Blames (missing ++ later) ((x >>= f) s) := by
  apply (hx.imp_error fun e _ he => he.append later).bind
  intro a s' h
  obtain ⟨rfl, hforest⟩ := h
  exact hf a s' hforest

theorem Blames.first {x : Infer α} {f : α → Infer β} (hx : Blames [] (x s))
    (hf : ∀ a s', s'.forest.WellFormed → Blames missing (f a s')) :
    Blames missing ((x >>= f) s) := hx.bind hf

theorem Blames.last {x : Infer α} {f : α → Infer β} (hx : Blames missing (x s))
    (hf : ∀ a s', s'.forest.WellFormed → Blames [] (f a s')) :
    Blames missing ((x >>= f) s) := by
  rw [← List.append_nil missing]
  exact hx.bind hf

theorem blames_draw (d : Draw α) (hs : s.forest.WellFormed) : Blames [] (draw d s) := by
  apply (meets_draw d s).imp
  · intro a s' h
    obtain ⟨supply, -, rfl⟩ := h
    exact ⟨rfl, hs⟩
  · exact fun _ _ he => he

theorem blames_fresh (hs : s.forest.WellFormed) : Blames [] (fresh s) :=
  (blames_draw Draw.fresh hs).bind fun _ _ hs' => ⟨rfl, hs'⟩

theorem blames_report (event : Log.Event) (hs : s.forest.WellFormed) : Blames [] (report event s) :=
  ⟨rfl, hs⟩

theorem blames_concludeW (form : Term.Form) (S : Subst) (t : Ty) (hs : s.forest.WellFormed) :
    Blames [] (Context.concludeW form S t s) :=
  ⟨rfl, hs⟩

theorem blames_concludeJ (form : Term.Form) (t : Ty) (hs : s.forest.WellFormed) :
    Blames [] (Context.concludeJ form t s) :=
  ⟨rfl, hs⟩

theorem blames_get (hs : s.forest.WellFormed) : Blames [] ((get : Infer Session) s) := ⟨rfl, hs⟩

theorem blames_find (t : Ty) (hs : s.forest.WellFormed) : Blames [] (find t s) := ⟨rfl, hs.find t⟩

theorem blames_lookup (Γ : Context) (name : String) (hs : s.forest.WellFormed) :
    Blames (Γ.missing [name]) (lookup Γ name s) := by
  rw [lookup]
  cases hget : Γ.get? name with
  | none =>
    show TypeError.Genuine (Γ.missing [name]) (.unbound name)
    simp [TypeError.Genuine, Context.missing, hget]
  | some σ =>
    have hbound : Γ.missing [name] = [] := by simp [Context.missing, hget]
    rw [hbound]
    exact blames_draw σ.instantiate hs

theorem blames_mgu (a b : Ty) (hs : s.forest.WellFormed) : Blames [] (mgu a b s) := by
  rw [mgu]
  cases hmgu : a.mgu b with
  | error e => exact (Ty.unifies_mgu a b).genuine hmgu
  | ok u => exact ⟨rfl, hs⟩

theorem blames_unify (a b : Ty) (hs : s.forest.WellFormed) : Blames [] (unify a b s) := by
  have hstands : s.Stands s.supply.mode s.supply.next s.forest := ⟨rfl, rfl⟩
  apply (meets_unify hstands fun e _ herror _ => (hs.unifies_unify a b).genuine hs herror).imp
  · intro _ s' h
    exact ⟨rfl, h.2.forest ▸ (hs.unify_refines a b).wellFormed⟩
  · exact fun _ _ he => he

end Infer

/-! ### The algorithms -/

namespace Context

open Infer

theorem blames_typeBySubst (term : Term) (Γ : Context) {s : Session} (hs : s.forest.WellFormed) :
    Blames (Γ.missing term.free) (Γ.typeBySubst term s) := by
  induction term generalizing Γ s with
  | int value => exact blames_concludeW _ _ _ hs
  | bool value => exact blames_concludeW _ _ _ hs
  | var name => exact (blames_lookup Γ name hs).last fun t _ hs₁ => blames_concludeW _ _ _ hs₁
  | app func arg ihfunc iharg =>
    rw [Term.free, missing_append]
    apply (blames_fresh hs).first
    intro result s₁ hs₁
    apply (ihfunc Γ hs₁).bind
    intro answer s₂ hs₂
    rw [← missing_subst Γ answer.1]
    apply (iharg _ hs₂).last
    intro answer' s₃ hs₃
    exact (blames_mgu _ _ hs₃).first fun u _ hs₄ => blames_concludeW _ _ _ hs₄
  | abs param body ih =>
    apply (blames_fresh hs).first
    intro t s₁ hs₁
    rw [Term.free, ← missing_insert Γ param (.mono t)]
    exact (ih _ hs₁).last fun answer _ hs₂ => blames_concludeW _ _ _ hs₂
  | letIn name init body ihinit ihbody =>
    rw [Term.free, missing_append]
    apply (ihinit Γ hs).bind
    intro answer s₁ hs₁
    rw [← missing_insert Γ name (generalize (Γ.subst answer.1) answer.2),
      ← missing_subst _ answer.1]
    apply (blames_report _ hs₁).first
    intro _ s₂ hs₂
    exact (ihbody _ hs₂).last fun answer' _ hs₃ => blames_concludeW _ _ _ hs₃

theorem blames_typeByLinks (term : Term) (Γ : Context) {s : Session} (hs : s.forest.WellFormed) :
    Blames (Γ.missing term.free) (Γ.typeByLinks term s) := by
  induction term generalizing Γ s with
  | int value => exact blames_concludeJ _ _ hs
  | bool value => exact blames_concludeJ _ _ hs
  | var name => exact (blames_lookup Γ name hs).last fun t _ hs₁ => blames_concludeJ _ _ hs₁
  | app func arg ihfunc iharg =>
    rw [Term.free, missing_append]
    apply (ihfunc Γ hs).bind
    intro t₁ s₁ hs₁
    apply (iharg Γ hs₁).last
    intro t₂ s₂ hs₂
    apply (blames_fresh hs₂).first
    intro result s₃ hs₃
    apply (blames_unify t₁ (.fn t₂ result) hs₃).first
    intro _ s₄ hs₄
    exact (blames_find result hs₄).first fun t _ hs₅ => blames_concludeJ _ _ hs₅
  | abs param body ih =>
    apply (blames_fresh hs).first
    intro t s₁ hs₁
    rw [Term.free, ← missing_insert Γ param (.mono t)]
    apply (ih _ hs₁).last
    intro t' s₂ hs₂
    apply (blames_find t hs₂).first
    intro dom s₃ hs₃
    exact (blames_find t' hs₃).first fun cod _ hs₄ => blames_concludeJ _ _ hs₄
  | letIn name init body ihinit ihbody =>
    rw [Term.free, missing_append]
    apply (ihinit Γ hs).bind
    intro t₁ s₁ hs₁
    apply (blames_get hs₁).first
    intro session s₂ hs₂
    apply (blames_report _ hs₂).first
    intro _ s₃ hs₃
    rw [← missing_insert Γ name (Γ.generalizeIn session.forest t₁)]
    exact (ihbody _ hs₃).last fun t₂ _ hs₄ => blames_concludeJ _ _ hs₄

/-- How a run for a term ends if it does not exhaust its supply. -/
structure Accountable (Γ : Context) (term : Term) {α : Type} (r : Except Failure α × Session) :
    Prop where
  genuine : ∀ e, r.1 = .error (.illTyped e) → e.Genuine (Γ.missing term.free)
  fails : ∀ x ∈ term.free, Γ.get? x = none → r.1 ≠ .error .exhausted →
    ∃ e, r.1 = .error (.illTyped e)

private theorem accountable_of_blames {Γ : Context} {term : Term} {α : Type}
    {r : Except Failure α × Session} (h : Blames (Γ.missing term.free) r) :
    Γ.Accountable term r where
  genuine := by
    intro e herror
    obtain ⟨_, s⟩ := r
    cases herror
    exact h
  fails := by
    intro x hx hget hsupply
    obtain ⟨(e | _) | a, s⟩ := r
    · exact ⟨e, rfl⟩
    · exact absurd rfl hsupply
    · have hmem := mem_missing.mpr ⟨hx, hget⟩
      rw [h.1] at hmem
      cases hmem

/-- Every type error of either algorithm is genuine, and neither answers for a term with a free name
that the context does not bind. -/
theorem infer_accountable (Γ : Context) (term : Term) {s : Session} (hforest : s.forest.Reachable) :
    Γ.Accountable term (Γ.inferW term s) ∧ Γ.Accountable term (Γ.inferJ term s) := by
  have hs := hforest.wellFormed
  constructor
  · exact accountable_of_blames
      ((blames_draw Γ.reserve hs).first fun _ _ hs₁ => blames_typeBySubst term Γ hs₁)
  · exact accountable_of_blames
      ((blames_draw Γ.reserve hs).first fun _ _ hs₁ => blames_typeByLinks term Γ hs₁)

def provided : Context := OrderedMap.ofList [("g", .mono (.var 0))]

/-- Its name `x` is bound at one place and free at the next. -/
def shadowed : Term := .app (.abs "x" (.app (.var "g") (.var "x"))) (.var "x")

/-- A unification has failed here, and has left the type of `g` a base type. -/
def halted : Session :=
  { supply := ⟨.owned, 0⟩, forest :=
    ((∅ : Forest).unify (.fn (.var 0) .int) (.fn .bool .bool)).forest }

/-- Algorithm J meets a clash before it gets to the name that is missing; algorithm W, which knows
nothing of the forest, gets there. -/
theorem infer_accountable_shadowed :
    provided.missing shadowed.free = ["x"] ∧
      (provided.inferW shadowed halted).1 = .error (.illTyped (.unbound "x")) ∧
      (provided.inferJ shadowed halted).1 =
        .error (.illTyped (.mismatch .bool (.fn (.var 1) (.var 2)))) ∧
      provided.Accountable shadowed (provided.inferW shadowed halted) ∧
        provided.Accountable shadowed (provided.inferJ shadowed halted) := by
  have hforest : halted.forest.Reachable := .unify .empty _ _
  exact ⟨by decide, by cbv, by decide +kernel, infer_accountable provided shadowed hforest⟩

end Context

end HindleyMilner
