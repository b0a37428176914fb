import HindleyMilner.Engine
import HindleyMilner.Proofs.Linking.Footprint

/-!
# Freshness

An engine that answers one question after the other never uses a variable twice. Whatever it names
in an answer, in a type, in a scheme or in the types of an error, is free in the context of that
question, or else it is new: it is above everything that occurs in the contexts up to then and above
everything that the answers before have named.

One question: the run reserves what its context mentions, and from there on stays within reach of
the context (`Context.Names`). All questions: the supply of the engine is above everything that was
ever mentioned, and no question moves it back, not even one that fails.
-/

namespace HindleyMilner

open Infer (Meets)

/-! ### One question -/

/-- On the way from one supply to the other, the variables `named` were named. They are free in the
context, or were drawn above all that its bodies mention. -/
def Context.Names (Γ : Context) (before after : Supply) (named : VarSet) : Prop :=
  ∃ k, after.mode = before.mode ∧ before.next ≤ k ∧ k ≤ after.next ∧ (∀ v ∈ Γ.bodyVars, v < k) ∧
    ∀ v ∈ named, v ∈ Γ.reach k after.next

namespace Context.Names

variable {Γ : Context} {s₀ s₁ s₂ : Supply} {named named' : VarSet}

theorem mono (h : Γ.Names s₀ s₁ named) (hsub : ∀ v ∈ named', v ∈ named) : Γ.Names s₀ s₁ named' := by
  obtain ⟨k, hmode, hge, hle, hbound, hreach⟩ := h
  exact ⟨k, hmode, hge, hle, hbound, fun v hv => hreach v (hsub v hv)⟩

theorem union (h : Γ.Names s₀ s₁ named) (h' : Γ.Names s₁ s₂ named') :
    Γ.Names s₀ s₂ (named ∪ named') := by
  obtain ⟨k, hmode, hge, hle, hbound, hreach⟩ := h
  obtain ⟨k', hmode', hge', hle', -, hreach'⟩ := h'
  refine ⟨k, hmode'.trans hmode, hge, by omega, hbound, fun v hv => ?_⟩
  rcases VarSet.mem_union.mp hv with hv | hv
  · exact reach_widen (Nat.le_refl k) (Nat.le_trans hge' hle') (hreach v hv)
  · exact reach_widen (Nat.le_trans hle hge') (Nat.le_refl _) (hreach' v hv)

private theorem mode_eq (h : Γ.Names s₀ s₁ named) : s₁.mode = s₀.mode := by
  obtain ⟨k, hmode, -⟩ := h
  exact hmode

theorem le (h : Γ.Names s₀ s₁ named) : s₀.next ≤ s₁.next := by
  obtain ⟨k, -, hge, hle, -⟩ := h
  exact Nat.le_trans hge hle

/-- Nothing that the context or the answer mentions is at or above the supply at the end. -/
theorem lt_next (h : Γ.Names s₀ s₁ named) {v : Nat} (hv : v ∈ Γ.bodyVars ∨ v ∈ named) :
    v < s₁.next := by
  obtain ⟨k, -, -, hle, hbound, hreach⟩ := h
  rcases hv with hv | hv
  · exact Nat.lt_of_lt_of_le (hbound v hv) hle
  · rcases hreach v hv with hfree | ⟨-, hlt⟩
    · exact Nat.lt_of_lt_of_le (hbound v (mem_bodyVars_of_mem_free hfree)) hle
    · exact hlt

end Context.Names

namespace Context

variable {Γ : Context} {s : Session}

theorem inferW_names (Γ : Context) (term : Term) (hmode : s.supply.mode ≠ .shared) :
    Meets (fun answer s' => Γ.Names s.supply s'.supply answer.2.vars)
      (fun e s' => Γ.Names s.supply s'.supply e.vars) (Γ.inferW term s) := by
  have hs : s.Stands s.supply.mode s.supply.next s.forest := ⟨rfl, rfl⟩
  refine (Infer.meets_reserve Γ hs).bind fun _ s₁ hreserve => ?_
  obtain ⟨k, hs₁, hge, hbound⟩ := hreserve
  apply (typeBySubst_footprint term hmode hs₁ fun v hv =>
    hbound v (mem_bodyVars_of_mem_free hv)).imp
  · intro answer s₂ h
    obtain ⟨n, hs₂, hfootprint⟩ := h
    rw [hs₂.supply]
    exact ⟨k, rfl, hge, hfootprint.le, hbound, hfootprint.reached⟩
  · intro e s₂ h
    obtain ⟨n, hs₂, hle, hreach⟩ := h
    rw [hs₂.supply]
    exact ⟨k, rfl, hge, hle, hbound, hreach⟩

/-- What algorithm J names when it starts with an empty forest, its result read through the
forest it leaves. -/
theorem inferJ_names (Γ : Context) (term : Term) (hmode : s.supply.mode ≠ .shared)
    (hforest : s.forest = ∅) :
    Meets (fun t s' => Γ.Names s.supply s'.supply (s'.forest.resolve t).vars)
      (fun e s' => Γ.Names s.supply s'.supply e.vars) (Γ.inferJ term s) := by
  have hs : s.Stands s.supply.mode s.supply.next ∅ := ⟨rfl, hforest⟩
  refine (Infer.meets_reserve Γ hs).bind fun _ s₁ hreserve => ?_
  obtain ⟨k, hs₁, hge, hbound⟩ := hreserve
  apply (typeByLinks_traced (Δ := Γ) term hmode hs₁ (Nat.le_refl k) (Forest.over_empty _)
    fun v hv => .inl hv).imp
  · intro t s₂ h
    obtain ⟨n, forest, hs₂, hle, hover, ht⟩ := h
    rw [hs₂.supply, hs₂.forest]
    exact ⟨k, rfl, hge, hle, hbound, hover.resolve ht⟩
  · intro e s₂ h
    obtain ⟨n, forest, hs₂, hle, -, hreach⟩ := h
    rw [hs₂.supply]
    exact ⟨k, rfl, hge, hle, hbound, hreach⟩

end Context

/-- The variables of a scheme, bound or not. -/
def Scheme.vars (σ : Scheme) : VarSet := σ.body.vars ∪ σ.binders

/-- The variables of a type, or of the error that stands in its place. -/
def outcomeVars : Except TypeError Ty → VarSet
  | .ok t => t.vars
  | .error e => e.vars

def Agreement.vars (a : Agreement) : VarSet := outcomeVars a.w ∪ outcomeVars a.j

namespace Infer

variable {Γ : Context} {s : Session}

theorem principalType_names (Γ : Context) (term : Term) (algorithm : Algorithm)
    (hmode : s.supply.mode ≠ .shared) :
    Meets (fun t s' => Γ.Names s.supply s'.supply t.vars)
      (fun e s' => Γ.Names s.supply s'.supply e.vars) (principalType Γ term algorithm s) := by
  cases algorithm with
  | w => exact (Γ.inferW_names term hmode).bind fun _ _ h => h
  | j => exact (Γ.inferJ_names (s := { s with forest := ∅ }) term hmode rfl).bind fun _ _ h => h

theorem principalScheme_names (Γ : Context) (term : Term) (algorithm : Algorithm)
    (hmode : s.supply.mode ≠ .shared) :
    Meets (fun σ s' => Γ.Names s.supply s'.supply σ.vars)
      (fun e s' => Γ.Names s.supply s'.supply e.vars) (principalScheme Γ term algorithm s) := by
  have hbinders : ∀ (t : Ty) (known : VarSet) (v : Nat), v ∈ (Scheme.mk (t.vars \ known) t).vars →
      v ∈ t.vars := by
    intro t known v hv
    rcases VarSet.mem_union.mp hv with hv | hv
    · exact hv
    · exact (VarSet.mem_sdiff.mp hv).1
  cases algorithm with
  | w => exact (Γ.inferW_names term hmode).bind fun _ _ h => h.mono (hbinders _ _)
  | j =>
    exact (Γ.inferJ_names (s := { s with forest := ∅ }) term hmode rfl).bind fun _ _ h =>
      h.mono (hbinders _ _)

private theorem outcome_principalType_names (Γ : Context) (term : Term) (algorithm : Algorithm)
    (hmode : s.supply.mode ≠ .shared) {E : TypeError → Session → Prop} :
    Meets (fun r s' => Γ.Names s.supply s'.supply (outcomeVars r)) E
      (outcome (principalType Γ term algorithm) s) := by
  apply (meets_outcome _ s).imp
  · intro r s' hrun
    have h := principalType_names Γ term algorithm hmode
    rw [hrun] at h
    cases r with
    | ok t => exact h
    | error e => exact h
  · exact fun _ _ h => h

theorem compare_names (Γ : Context) (term : Term) (hmode : s.supply.mode ≠ .shared)
    {E : TypeError → Session → Prop} :
    Meets (fun a s' => Γ.Names s.supply s'.supply a.vars) E (compare Γ term s) := by
  refine (outcome_principalType_names Γ term .w hmode).bind fun w s₁ hw => ?_
  have hmode₁ : s₁.supply.mode ≠ .shared := by rwa [hw.mode_eq]
  refine (outcome_principalType_names Γ term .j hmode₁).bind fun j s₂ hj => ?_
  have hboth := hw.union hj
  cases (Agreement.mk w j).agrees with
  | true => exact hboth
  | false => exact hboth

end Infer

/-! ### One question after the other -/

inductive Question where
  | type
  | scheme
  | agreement
  deriving DecidableEq, Repr

/-- A question to an engine, about a term in a context. -/
structure Call where
  question : Question
  context : Context
  term : Term

deriving instance DecidableEq for Agreement

inductive Answer where
  | type (t : Ty)
  | scheme (σ : Scheme)
  | agreement (a : Agreement)
  deriving DecidableEq

/-- Every variable that occurs in an answer. -/
def Answer.vars : Answer → VarSet
  | type t => t.vars
  | scheme σ => σ.vars
  | agreement a => a.vars

namespace Reply

def map {α β : Type} (f : α → β) (reply : Reply α) : Reply β :=
  ⟨reply.answer.map f, reply.engine, reply.events⟩

/-- Every variable that occurs in the answer, or in the type error that stands in its place. -/
def vars (reply : Reply Answer) : VarSet :=
  match reply.answer with
  | .ok answer => answer.vars
  | .error (.illTyped e) => e.vars
  | .error .exhausted => ∅

end Reply

/-- A question with the reply to it. -/
structure Exchange where
  call : Call
  reply : Reply Answer

namespace Engine

def ask (engine : Engine) (call : Call) : Reply Answer :=
  match call.question with
  | .type => (engine.infer call.context call.term).map .type
  | .scheme => (engine.inferScheme call.context call.term).map .scheme
  | .agreement => (engine.checkAgreement call.context call.term).map .agreement

/-- Puts the questions one after the other, each to the engine that the one before has left. -/
def history (engine : Engine) : List Call → List Exchange
  | [] => []
  | call :: rest => ⟨call, engine.ask call⟩ :: (engine.ask call).engine.history rest

private theorem names_run {α : Type} {engine : Engine} {act : Infer α} {wrap : α → Answer}
    {Γ : Context}
    (h : Meets (fun a s' => Γ.Names engine.supply s'.supply (wrap a).vars)
      (fun e s' => Γ.Names engine.supply s'.supply e.vars) (act { supply := engine.supply }))
    (hsupply : ((engine.run act).map wrap).answer ≠ .error .exhausted) :
    Γ.Names engine.supply ((engine.run act).map wrap).engine.supply
      ((engine.run act).map wrap).vars := by
  simp only [run, Reply.map] at hsupply ⊢
  generalize act { supply := engine.supply } = result at h hsupply ⊢
  rcases result with ⟨(e | _) | a, s'⟩
  · exact h
  · exact absurd rfl hsupply
  · exact h

private theorem names_ask (engine : Engine) (call : Call) (hmode : engine.supply.mode ≠ .shared)
    (hsupply : (engine.ask call).answer ≠ .error .exhausted) :
    call.context.Names engine.supply (engine.ask call).engine.supply (engine.ask call).vars := by
  obtain ⟨question, Γ, term⟩ := call
  cases question with
  | type =>
    refine names_run ?_ hsupply
    refine (Infer.outcome_principalType_names Γ term _ hmode).bind fun r s₁ hr => ?_
    cases r with
    | ok t => exact hr
    | error e => exact hr
  | scheme =>
    refine names_run ?_ hsupply
    exact (Infer.principalScheme_names Γ term _ hmode).bind fun _ _ h => h
  | agreement =>
    refine names_run ?_ hsupply
    exact Infer.compare_names Γ term hmode

/-- Where an exchange stands in a history there is an index that the exchanges before it are below
and from which on it draws. -/
theorem exists_split_history {engine : Engine} {calls : List Call} {earlier later : List Exchange}
    {x : Exchange} (hmode : engine.supply.mode ≠ .shared)
    (hsplit : engine.history calls = earlier ++ x :: later)
    (hsupply : ∀ y ∈ earlier, y.reply.answer ≠ .error .exhausted)
    (hlast : x.reply.answer ≠ .error .exhausted) :
    ∃ k, engine.supply.next ≤ k ∧
      (∀ y ∈ earlier, ∀ v, v ∈ y.call.context.bodyVars ∨ v ∈ y.reply.vars → v < k) ∧
      (∀ v ∈ x.call.context.bodyVars, v < k) ∧ ∀ v ∈ x.reply.vars, v ∈ x.call.context.free ∨
        k ≤ v := by
  induction earlier generalizing engine calls with
  | nil =>
    cases calls with
    | nil => cases hsplit
    | cons call rest =>
      obtain ⟨rfl, -⟩ := List.cons.inj hsplit
      obtain ⟨k, -, hge, -, hbound, hreach⟩ := engine.names_ask call hmode hlast
      refine ⟨k, hge, fun y hy => absurd hy List.not_mem_nil, hbound, fun v hv => ?_⟩
      rcases hreach v hv with hfree | ⟨hdrawn, -⟩
      · exact .inl hfree
      · exact .inr hdrawn
  | cons y earlier ih =>
    cases calls with
    | nil => cases hsplit
    | cons call rest =>
      obtain ⟨rfl, hrest⟩ := List.cons.inj hsplit
      have hfirst := engine.names_ask call hmode (hsupply _ List.mem_cons_self)
      have hmode₁ : (engine.ask call).engine.supply.mode ≠ .shared := by rwa [hfirst.mode_eq]
      obtain ⟨k, hk, hbelow, hbound, hdrawn⟩ :=
        ih hmode₁ hrest fun y hy => hsupply y (List.mem_cons_of_mem _ hy)
      refine ⟨k, Nat.le_trans hfirst.le hk, fun y hy v hv => ?_, hbound, hdrawn⟩
      rcases List.mem_cons.mp hy with rfl | hy
      · exact Nat.lt_of_lt_of_le (hfirst.lt_next hv) hk
      · exact hbelow y hy v hv

/-- In every sequence of questions to one engine, a variable of a reply is free in the context of
its question, or it is above all variables in the bodies of the contexts up to then and above all
variables of the replies before. -/
theorem history_fresh {settings : Settings} {calls : List Call} {earlier later : List Exchange}
    {call : Call} {reply : Reply Answer}
    (hsplit : (start settings).history calls = earlier ++ ⟨call, reply⟩ :: later)
    (hsupply : ∀ x ∈ earlier, x.reply.answer ≠ .error .exhausted) :
    ∀ v ∈ reply.vars, v ∈ call.context.free ∨
      (∀ w ∈ call.context.bodyVars, w < v) ∧ ∀ x ∈ earlier, (∀ w ∈ x.call.context.bodyVars, w < v) ∧
        ∀ w ∈ x.reply.vars, w < v := by
  intro v hv
  have hlast : reply.answer ≠ .error .exhausted := by
    intro hexhausted
    simp [Reply.vars, hexhausted] at hv
  have hmode : (start settings).supply.mode ≠ .shared := by simp [start]
  obtain ⟨k, -, hbelow, hbound, hdrawn⟩ := exists_split_history hmode hsplit hsupply hlast
  rcases hdrawn v hv with hfree | hge
  · exact .inl hfree
  · refine .inr ⟨fun w hw => Nat.lt_of_lt_of_le (hbound w hw) hge,
      fun x hx => ⟨fun w hw => ?_, fun w hw => ?_⟩⟩
    · exact Nat.lt_of_lt_of_le (hbelow x hx w (.inl hw)) hge
    · exact Nat.lt_of_lt_of_le (hbelow x hx w (.inr hw)) hge

/-- Not hygienic: the variable that one scheme binds is free in the other. -/
def crossed : Context :=
  OrderedMap.ofList [("y", ⟨VarSet.ofList [7], .fn (.var 7) (.var 3)⟩), ("z", .mono (.var 7))]

/-- A question that fails stands between two that have answers. -/
def opening : List Call :=
  [⟨.type, ∅, .abs "x" (.var "x")⟩, ⟨.type, ∅, .app (.int 1) (.int 2)⟩,
    ⟨.agreement, crossed, .abs "x" (.var "y")⟩]

def applying : Call := ⟨.scheme, crossed, .abs "x" (.app (.var "y") (.var "x"))⟩

theorem history_fresh_crossed :
    ∃ earlier reply, (start { algorithm := .j }).history (opening ++ [applying]) =
      earlier ++ [⟨applying, reply⟩] ∧
      reply.answer = .ok (.scheme ⟨VarSet.ofList [12], .fn (.var 12) (.var 14)⟩) ∧
      ∀ v ∈ reply.vars, v ∈ crossed.free ∨
        (∀ w ∈ crossed.bodyVars, w < v) ∧ ∀ x ∈ earlier, (∀ w ∈ x.call.context.bodyVars, w < v) ∧
          ∀ w ∈ x.reply.vars, w < v := by
  have hsplit : (start { algorithm := .j }).history (opening ++ [applying]) =
      (start { algorithm := .j }).history opening ++ [⟨applying, _⟩] := rfl
  have hsupply :
      ∀ x ∈ (start { algorithm := .j }).history opening, x.reply.answer ≠ .error .exhausted := by
    decide +kernel
  refine ⟨_, _, hsplit, ?_, history_fresh hsplit hsupply⟩
  decide +kernel

end Engine

end HindleyMilner
