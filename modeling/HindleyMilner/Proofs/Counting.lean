import HindleyMilner.Proofs.Runs

/-!
# Modes of counting

Inference uses a supply for nothing but drawing and reserving, and once the context is reserved it
only draws. Said once of the algorithms (`Infer.DrawsOnly` and `Infer.FreshOnly`), this makes the
mode of the supply irrelevant as long as the indices last: a run that an owned supply survives is
the same run on any other supply that stands at the same index. So that the counter of a shared
supply does not overflow is said by looking at an owned one instead (`Infer.InRange`). An unbounded
supply is never exhausted.
-/

namespace HindleyMilner

namespace Draw

/-- Draws, and asks nothing else of the supply. -/
inductive FreshOnly : {α : Type} → Draw α → Prop
  | pure {α : Type} (a : α) : FreshOnly (pure a)
  | fresh : FreshOnly Draw.fresh
  | bind {α β : Type} {d : Draw α} {f : α → Draw β} (hd : FreshOnly d) (hf : ∀ a, FreshOnly (f a)) :
      FreshOnly (d >>= f)

theorem FreshOnly.freshFor (vs : List Nat) : FreshOnly (Draw.freshFor vs) := by
  induction vs with
  | nil => exact .pure []
  | cons v rest ih => exact .bind .fresh fun w => .bind ih fun pairs => .pure _

theorem FreshOnly.instantiate (σ : Scheme) : FreshOnly σ.instantiate :=
  .bind (.freshFor _) fun _ => .pure _

/-- Draws and reserves in turn, and asks nothing else of the supply. -/
inductive DrawsOnly : {α : Type} → Draw α → Prop
  | pure {α : Type} (a : α) : DrawsOnly (pure a)
  | fresh : DrawsOnly Draw.fresh
  | reserve (used : Nat) : DrawsOnly (Draw.reserve used)
  | bind {α β : Type} {d : Draw α} {f : α → Draw β} (hd : DrawsOnly d) (hf : ∀ a, DrawsOnly (f a)) :
      DrawsOnly (d >>= f)

namespace DrawsOnly

theorem of_freshOnly {α : Type} {d : Draw α} (h : FreshOnly d) : DrawsOnly d := by
  induction h with
  | pure a => exact .pure a
  | fresh => exact .fresh
  | bind hd hf ihd ihf => exact .bind ihd ihf

theorem reserveContext (Γ : Context) : DrawsOnly Γ.reserve := by
  rw [Context.reserve]
  cases Γ.bodyVars.max? with
  | none => exact .pure ()
  | some v => exact .reserve v

variable {α : Type} {d : Draw α}

/-- What an owned supply can give, every supply at the same index gives. -/
theorem eq_some_of_owned (h : DrawsOnly d) {n : Nat} {a : α} {s : Supply}
    (howned : d ⟨.owned, n⟩ = some (a, s)) (mode : Supply.Mode) :
    s.mode = .owned ∧ d ⟨mode, n⟩ = some (a, { s with mode }) := by
  induction h generalizing n s with
  | pure a =>
    cases howned
    exact ⟨rfl, rfl⟩
  | fresh =>
    by_cases hlt : n + 1 < Supply.indexCount
    · simp only [Draw.fresh, Supply.fresh, Supply.Mode.succ?, if_pos hlt, Option.map_some,
        Option.some.injEq, Prod.mk.injEq] at howned
      obtain ⟨rfl, rfl⟩ := howned
      cases mode <;> simp [Draw.fresh, Supply.fresh, Supply.Mode.succ?, hlt, Nat.mod_eq_of_lt hlt]
    · simp [Draw.fresh, Supply.fresh, Supply.Mode.succ?, hlt] at howned
  | reserve used =>
    by_cases hlt : used + 1 < Supply.indexCount
    · simp only [Draw.reserve, Supply.reserve, Supply.Mode.above?, if_pos hlt, Option.map_some,
        Option.some.injEq, Prod.mk.injEq] at howned
      obtain ⟨-, rfl⟩ := howned
      cases mode <;> simp [Draw.reserve, Supply.reserve, Supply.Mode.above?, hlt]
    · simp [Draw.reserve, Supply.reserve, Supply.Mode.above?, hlt] at howned
  | bind hd hf ihd ihf =>
    obtain ⟨⟨b, s₁⟩, hfirst, hrest⟩ := Option.bind_eq_some_iff.mp howned
    obtain ⟨hmode, hfirst'⟩ := ihd hfirst
    obtain ⟨_, m⟩ := s₁
    obtain rfl : _ = Supply.Mode.owned := hmode
    obtain ⟨hlast, hrest'⟩ := ihf b hrest
    exact ⟨hlast, Option.bind_eq_some_iff.mpr ⟨_, hfirst', hrest'⟩⟩

theorem exists_eq_some_of_unbounded (h : DrawsOnly d) (n : Nat) :
    ∃ a n', d ⟨.unbounded, n⟩ = some (a, ⟨.unbounded, n'⟩) := by
  induction h generalizing n with
  | pure a => exact ⟨a, n, rfl⟩
  | fresh => exact ⟨n, n + 1, rfl⟩
  | reserve used => exact ⟨(), max n (used + 1), rfl⟩
  | bind hd hf ihd ihf =>
    obtain ⟨a, n₁, hfirst⟩ := ihd n
    obtain ⟨b, n₂, hrest⟩ := ihf a n₁
    exact ⟨b, n₂, Option.bind_eq_some_iff.mpr ⟨_, hfirst, hrest⟩⟩

end DrawsOnly

end Draw

/-- The session with the same indices under another mode. -/
def Session.withMode (s : Session) (mode : Supply.Mode) : Session :=
  { s with supply := { s.supply with mode } }

/-- The mode that refuses to count on where this one would start again. -/
def Supply.Mode.strict : Supply.Mode → Supply.Mode
  | shared => owned
  | mode => mode

theorem Supply.Mode.strict_ne_shared (mode : Supply.Mode) : mode.strict ≠ .shared := by
  cases mode <;> decide

def Session.strict (s : Session) : Session := s.withMode s.supply.mode.strict

theorem Session.stands_strict (s : Session) :
    s.strict.Stands s.supply.mode.strict s.supply.next s.forest :=
  ⟨rfl, rfl⟩

theorem Draw.DrawsOnly.eq_some_of_strict {α : Type} {d : Draw α} (h : d.DrawsOnly) {s : Session}
    {a : α} {u : Supply} (hstrict : d s.strict.supply = some (a, u)) :
    d s.supply = some (a, { u with mode := s.supply.mode }) := by
  obtain ⟨⟨mode, n⟩, forest, events⟩ := s
  cases mode with
  | owned => exact (h.eq_some_of_owned hstrict .owned).2
  | shared => exact (h.eq_some_of_owned hstrict .shared).2
  | unbounded =>
    obtain ⟨b, n', hdraw⟩ := h.exists_eq_some_of_unbounded n
    obtain ⟨rfl, rfl⟩ := Prod.mk.inj (Option.some.inj (hstrict.symm.trans hdraw))
    exact hstrict

namespace Infer

/-- Neither looks at the supply nor changes it. -/
structure Aside {α : Type} (x : Infer α) : Prop where
  run : ∀ (s : Session) (supply : Supply), x { s with supply } = ((x s).1, { (x s).2 with supply })
  ne_exhausted : ∀ s, (x s).1 ≠ .error .exhausted

theorem Aside.supply_eq {α : Type} {x : Infer α} (h : Aside x) (s : Session) :
    (x s).2.supply = s.supply :=
  congrArg (fun r => r.2.supply) (h.run s s.supply)

/-- Uses the supply for nothing but drawing, and looks at a session for the rest of it only. -/
inductive FreshOnly : {α : Type} → Infer α → Prop
  | draw {α : Type} {d : Draw α} (hd : d.FreshOnly) : FreshOnly (draw d)
  | aside {α : Type} {x : Infer α} (hx : Aside x) : FreshOnly x
  | look {α : Type} {f : Session → Infer α} (hsame : ∀ s supply, f { s with supply } = f s)
      (hf : ∀ s, FreshOnly (f s)) :
      FreshOnly (get >>= f)
  | bind {α β : Type} {x : Infer α} {f : α → Infer β} (hx : FreshOnly x)
      (hf : ∀ a, FreshOnly (f a)) : FreshOnly (x >>= f)

/-- Uses the supply for nothing but drawing and reserving, and looks at a session for the
rest of it only. -/
inductive DrawsOnly : {α : Type} → Infer α → Prop
  | draw {α : Type} {d : Draw α} (hd : d.DrawsOnly) : DrawsOnly (draw d)
  | aside {α : Type} {x : Infer α} (hx : Aside x) : DrawsOnly x
  | look {α : Type} {f : Session → Infer α} (hsame : ∀ s supply, f { s with supply } = f s)
      (hf : ∀ s, DrawsOnly (f s)) : DrawsOnly (get >>= f)
  | bind {α β : Type} {x : Infer α} {f : α → Infer β} (hx : DrawsOnly x)
      (hf : ∀ a, DrawsOnly (f a)) : DrawsOnly (x >>= f)

namespace DrawsOnly

variable {α : Type} {x : Infer α} {s : Session}

theorem of_freshOnly (h : FreshOnly x) : DrawsOnly x := by
  induction h with
  | draw hd => exact .draw (.of_freshOnly hd)
  | aside hx => exact .aside hx
  | look hsame hf ih => exact .look hsame ih
  | bind hx hf ihx ihf => exact .bind ihx ihf

theorem run_withMode (h : DrawsOnly x) (hmode : s.supply.mode = .owned)
    (hsupply : (x s).1 ≠ .error .exhausted) (mode : Supply.Mode) :
    (x s).2.supply.mode = .owned ∧ x (s.withMode mode) = ((x s).1, (x s).2.withMode mode) := by
  induction h generalizing s with
  | @draw _ d hd =>
    obtain ⟨⟨_, n⟩, forest, events⟩ := s
    obtain rfl : _ = Supply.Mode.owned := hmode
    rw [draw_apply] at hsupply ⊢
    rw [draw_apply]
    cases hrun : d ⟨.owned, n⟩ with
    | none => simp [hrun] at hsupply
    | some pair =>
      obtain ⟨hlast, hother⟩ := hd.eq_some_of_owned hrun mode
      simp [Session.withMode, hother, hlast]
  | aside hx =>
    rw [hx.supply_eq]
    refine ⟨hmode, (hx.run s _).trans ?_⟩
    rw [Session.withMode, hx.supply_eq]
  | @look _ f hsame hf ih =>
    have hgo : ∀ s, (get >>= f) s = f s s := fun s => by rw [bind_apply, get_apply]
    have hswitch : f (s.withMode mode) = f s := hsame s _
    rw [hgo] at hsupply ⊢
    rw [hgo, hswitch]
    exact ih s hmode hsupply
  | @bind _ _ x f hx hf ihx ihf =>
    rw [bind_apply] at hsupply ⊢
    rw [bind_apply]
    cases hrun : x s with
    | mk result s₁ =>
      have hfirst := ihx hmode
      rw [hrun] at hfirst hsupply
      cases result with
      | error failure =>
        have hne : failure ≠ .exhausted := fun heq => hsupply (congrArg Except.error heq)
        obtain ⟨hmode₁, hother⟩ := hfirst fun heq => hne (Except.error.inj heq)
        rw [hother]
        exact ⟨hmode₁, rfl⟩
      | ok a =>
        obtain ⟨hmode₁, hother⟩ := hfirst nofun
        rw [hother]
        exact ihf a hmode₁ hsupply

theorem ne_exhausted_of_unbounded (h : DrawsOnly x) (hmode : s.supply.mode = .unbounded) :
    (x s).1 ≠ .error .exhausted ∧ (x s).2.supply.mode = .unbounded := by
  induction h generalizing s with
  | @draw _ d hd =>
    obtain ⟨⟨_, n⟩, forest, events⟩ := s
    obtain rfl : _ = Supply.Mode.unbounded := hmode
    obtain ⟨a, n', hdraw⟩ := hd.exists_eq_some_of_unbounded n
    rw [draw_apply, hdraw]
    exact ⟨nofun, rfl⟩
  | aside hx =>
    rw [hx.supply_eq]
    exact ⟨hx.ne_exhausted s, hmode⟩
  | look hsame hf ih =>
    rw [bind_apply, get_apply]
    exact ih s hmode
  | @bind _ _ x f hx hf ihx ihf =>
    rw [bind_apply]
    have hfirst := ihx hmode
    cases hrun : x s with
    | mk result s₁ =>
      rw [hrun] at hfirst
      cases result with
      | error failure =>
        have hne : failure ≠ .exhausted := fun heq => hfirst.1 (congrArg Except.error heq)
        exact ⟨fun heq => hne (Except.error.inj heq), hfirst.2⟩
      | ok a => exact ihf a hfirst.2

end DrawsOnly

/-! ### The operations and the algorithms -/

theorem aside_report (event : Log.Event) : Aside (report event) := ⟨fun _ _ => rfl, fun _ => nofun⟩

theorem aside_pure {α : Type} (a : α) : Aside (pure a) := ⟨fun _ _ => rfl, fun _ => nofun⟩

theorem aside_throw {α : Type} (e : TypeError) : Aside (throw (.illTyped e) : Infer α) :=
  ⟨fun _ _ => rfl, fun _ => nofun⟩

theorem aside_find (t : Ty) : Aside (find t) := ⟨fun _ _ => rfl, fun _ => nofun⟩

theorem aside_clearForest : Aside clearForest := ⟨fun _ _ => rfl, fun _ => nofun⟩

theorem aside_mgu (a b : Ty) : Aside (mgu a b) := by
  rw [mgu]
  cases a.mgu b with
  | ok s => exact aside_pure s
  | error e => exact aside_throw e

theorem freshOnly_unify (a b : Ty) : FreshOnly (unify a b) := by
  refine .look (fun _ _ => rfl) fun s => .bind (.aside ⟨fun _ _ => rfl, fun _ => nofun⟩) fun _ =>
    .aside ?_
  cases (s.forest.unify a b).outcome with
  | ok _ => exact aside_pure ()
  | error e => exact aside_throw e

theorem freshOnly_fresh : FreshOnly fresh := by
  rw [fresh, map_eq_pure_bind]
  exact .bind (.draw .fresh) fun v => .aside (aside_pure _)

theorem freshOnly_lookup (Γ : Context) (name : String) : FreshOnly (lookup Γ name) := by
  rw [lookup]
  cases Γ.get? name with
  | none => exact .aside (aside_throw _)
  | some σ => exact .draw (.instantiate σ)

end Infer

namespace Context

open Infer (Aside FreshOnly DrawsOnly)

theorem aside_concludeW (form : Term.Form) (S : Subst) (t : Ty) : Aside (concludeW form S t) :=
  ⟨fun _ _ => rfl, fun _ => nofun⟩

theorem aside_concludeJ (form : Term.Form) (t : Ty) : Aside (concludeJ form t) :=
  ⟨fun _ _ => rfl, fun _ => nofun⟩

theorem freshOnly_typeBySubst (term : Term) (Γ : Context) : FreshOnly (Γ.typeBySubst term) := by
  induction term generalizing Γ with
  | int value => exact .aside (aside_concludeW _ _ _)
  | bool value => exact .aside (aside_concludeW _ _ _)
  | var name => exact .bind (Infer.freshOnly_lookup Γ name) fun t => .aside (aside_concludeW _ _ _)
  | app func arg ihfunc iharg =>
    refine .bind Infer.freshOnly_fresh fun result => .bind (ihfunc Γ) fun answer₁ => .bind (iharg _)
      fun answer₂ => ?_
    exact .bind (.aside (Infer.aside_mgu _ _)) fun u => .aside (aside_concludeW _ _ _)
  | abs param body ih =>
    exact .bind Infer.freshOnly_fresh fun t => .bind (ih _) fun answer =>
      .aside (aside_concludeW _ _ _)
  | letIn name init body ihinit ihbody =>
    refine .bind (ihinit Γ) fun answer₁ => .bind (.aside (Infer.aside_report _)) fun _ => ?_
    exact .bind (ihbody _) fun answer₂ => .aside (aside_concludeW _ _ _)

theorem freshOnly_typeByLinks (term : Term) (Γ : Context) : FreshOnly (Γ.typeByLinks term) := by
  induction term generalizing Γ with
  | int value => exact .aside (aside_concludeJ _ _)
  | bool value => exact .aside (aside_concludeJ _ _)
  | var name => exact .bind (Infer.freshOnly_lookup Γ name) fun t => .aside (aside_concludeJ _ _)
  | app func arg ihfunc iharg =>
    refine .bind (ihfunc Γ) fun t₁ => .bind (iharg Γ) fun t₂ => .bind Infer.freshOnly_fresh
      fun result => ?_
    exact .bind (Infer.freshOnly_unify _ _) fun _ => .bind (.aside (Infer.aside_find _)) fun t =>
      .aside (aside_concludeJ _ _)
  | abs param body ih =>
    refine .bind Infer.freshOnly_fresh fun t => .bind (ih _) fun t' => ?_
    exact .bind (.aside (Infer.aside_find _)) fun dom => .bind (.aside (Infer.aside_find _))
      fun cod => .aside (aside_concludeJ _ _)
  | letIn name init body ihinit ihbody =>
    refine .bind (ihinit Γ) fun t₁ => .look (fun _ _ => rfl) fun s =>
      .bind (.aside (Infer.aside_report _)) fun _ => ?_
    exact .bind (ihbody _) fun t₂ => .aside (aside_concludeJ _ _)

theorem drawsOnly_typeBySubst (term : Term) (Γ : Context) : DrawsOnly (Γ.typeBySubst term) :=
  .of_freshOnly (freshOnly_typeBySubst term Γ)

theorem drawsOnly_typeByLinks (term : Term) (Γ : Context) : DrawsOnly (Γ.typeByLinks term) :=
  .of_freshOnly (freshOnly_typeByLinks term Γ)

theorem drawsOnly_inferW (Γ : Context) (term : Term) : DrawsOnly (Γ.inferW term) :=
  .bind (.draw (.reserveContext Γ)) fun _ => drawsOnly_typeBySubst term Γ

theorem drawsOnly_inferJ (Γ : Context) (term : Term) : DrawsOnly (Γ.inferJ term) :=
  .bind (.draw (.reserveContext Γ)) fun _ => drawsOnly_typeByLinks term Γ

end Context

namespace Infer

theorem drawsOnly_principalType (Γ : Context) (term : Term) (algorithm : Algorithm) :
    DrawsOnly (principalType Γ term algorithm) := by
  cases algorithm with
  | w => exact .bind (Γ.drawsOnly_inferW term) fun answer => .aside (aside_pure _)
  | j =>
    refine .bind (.aside aside_clearForest) fun _ => .bind (Γ.drawsOnly_inferJ term) fun t => ?_
    exact .look (fun _ _ => rfl) fun s => .aside (aside_pure _)

theorem drawsOnly_principalScheme (Γ : Context) (term : Term) (algorithm : Algorithm) :
    DrawsOnly (principalScheme Γ term algorithm) := by
  cases algorithm with
  | w => exact .bind (Γ.drawsOnly_inferW term) fun answer => .aside (aside_pure _)
  | j =>
    refine .bind (.aside aside_clearForest) fun _ => .bind (Γ.drawsOnly_inferJ term) fun t => ?_
    exact .look (fun _ _ => rfl) fun s => .aside (aside_pure _)

/-! ### Runs that the indices suffice for -/

/-- The run does not count past the indices of its supply: it is not exhausted, and on a shared
supply it does not start again at zero. -/
def InRange {α : Type} (x : Infer α) (s : Session) : Prop := (x s.strict).1 ≠ .error .exhausted

theorem DrawsOnly.run_strict {α : Type} {x : Infer α} {s : Session} (h : DrawsOnly x)
    (hrange : InRange x s) :
    (x s).1 = (x s.strict).1 ∧ (x s).2.supply.next = (x s.strict).2.supply.next ∧
      (x s).2.forest = (x s.strict).2.forest := by
  obtain ⟨⟨mode, n⟩, forest, events⟩ := s
  cases mode with
  | owned => exact ⟨rfl, rfl, rfl⟩
  | unbounded => exact ⟨rfl, rfl, rfl⟩
  | shared =>
    have hrun := (h.run_withMode (s := ⟨⟨.owned, n⟩, forest, events⟩) rfl hrange .shared).2
    change x ⟨⟨.shared, n⟩, forest, events⟩ = _ at hrun
    rw [hrun]
    exact ⟨rfl, rfl, rfl⟩

end Infer

end HindleyMilner
