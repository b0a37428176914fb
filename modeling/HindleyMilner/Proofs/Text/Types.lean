import HindleyMilner.Context
import HindleyMilner.Proofs.Text.Legible

/-!
# Types are written unambiguously

Only a function to the left of an arrow is put in parentheses, and the index of a variable may have
any number of digits. Still, types that are written alike are equal, and so are schemes and
substitutions (`render_unambiguous`).

Two forms of a type are followed together: the whole one, and the one to the left of an arrow, which
is read up to anything but a digit. The whole one must not be followed by a blank either, since an
arrow would make a larger type of it.
-/

namespace HindleyMilner

open Text (Stops LegibleAt Legible)

namespace Ty

variable {t u : Ty}

private theorem exists_fn_of_isFn (ht : t.isFn = true) : ∃ a b, t = fn a b := by
  cases t with
  | fn a b => exact ⟨a, b, rfl⟩
  | _ => cases ht

/-- What a type looks like to the left of an arrow. -/
def renderDom (t : Ty) : String := if t.isFn then "(" ++ t.render ++ ")" else t.render

theorem render_fn (a b : Ty) : (fn a b).render = a.renderDom ++ (" -> " ++ b.render) := by
  rw [render, renderDom, String.append_assoc]

private theorem renderDom_fn (a b : Ty) : (fn a b).renderDom = "(" ++ ((fn a b).render ++ ")") := by
  rw [renderDom, isFn, if_pos rfl, String.append_assoc]

private theorem renderDom_of_not_isFn (ht : t.isFn = false) : t.renderDom = t.render := by
  simp [renderDom, ht]

/-! ### First characters -/

/-- The first character of a type to the left of an arrow. -/
def initial : Ty → Char
  | int => 'I'
  | bool => 'B'
  | var _ => 'a'
  | fn _ _ => '('

private theorem head?_renderDom (t : Ty) : t.renderDom.toList.head? = some t.initial := by
  cases t with
  | int => rfl
  | bool => rfl
  | var v => simp [renderDom, isFn, render, varName, initial]
  | fn a b => simp [renderDom_fn, initial]

private theorem head?_render (t : Ty) : ∃ u : Ty, t.render.toList.head? = some u.initial := by
  cases hfn : t.isFn with
  | false => exact ⟨t, by rw [← renderDom_of_not_isFn hfn, head?_renderDom]⟩
  | true =>
    obtain ⟨a, b, rfl⟩ := exists_fn_of_isFn hfn
    exact ⟨a, by rw [render_fn, String.toList_append,
      Text.head?_append_of_some (head?_renderDom a)]⟩

/-! ### Both forms are legible -/

private theorem legible_varName : Legible varName (fun c => c.isDigit = false) :=
  Text.legible_toString.after "a"

/-- Can continue neither an index nor a function. -/
def Ends (c : Char) : Prop := c.isDigit = false ∧ c ≠ ' '

theorem legibleAt_renderDom (hfn : t.isFn = true → LegibleAt render Ends t) :
    LegibleAt renderDom (fun c => c.isDigit = false) t := by
  intro u rest rest' hrest hrest' heq
  have hinitial : t.initial = u.initial := by
    have hheads := congrArg List.head? heq
    rw [Text.head?_append_of_some (head?_renderDom t),
      Text.head?_append_of_some (head?_renderDom u)] at hheads
    exact Option.some.inj hheads
  cases t <;> cases u <;> simp only [initial, Char.reduceEq] at hinitial
  case int.int => exact ⟨rfl, List.append_cancel_left heq⟩
  case bool.bool => exact ⟨rfl, List.append_cancel_left heq⟩
  case var.var v w =>
    obtain ⟨rfl, hrests⟩ := legible_varName v w rest rest' hrest hrest' heq
    exact ⟨rfl, hrests⟩
  case fn.fn a b c d =>
    simp only [renderDom_fn, String.toList_append, List.append_assoc,
      List.append_cancel_left_eq] at heq
    have hclose : ∀ rest, Stops Ends (")".toList ++ rest) :=
      fun rest => Text.stops_append rfl ⟨by decide, by decide⟩
    obtain ⟨hsame, hrests⟩ := hfn rfl (fn c d) _ _ (hclose rest) (hclose rest') heq
    exact ⟨hsame, List.append_cancel_left hrests⟩

/-- An arrow cannot follow a whole type. -/
theorem not_stops_arrow (rest : List Char) : ¬ Stops Ends (" -> ".toList ++ rest) := by
  intro hstops
  exact (hstops ' ' rfl).2 rfl

private theorem stops_arrow (rest : List Char) :
    Stops (fun c => c.isDigit = false) (" -> ".toList ++ rest) :=
  Text.stops_append rfl (by decide)

/-- The domain of a function is not the whole type: after it there comes an arrow. -/
theorem render_append_ne_fn (ht : t.isFn = false) (a b : Ty) {rest rest' : List Char}
    (hrest : Stops Ends rest) :
    t.render.toList ++ rest ≠ (fn a b).render.toList ++ rest' := by
  intro heq
  have hdom : LegibleAt renderDom (fun c => c.isDigit = false) t :=
    legibleAt_renderDom (by simp [ht])
  simp only [← renderDom_of_not_isFn ht, render_fn, String.toList_append, List.append_assoc] at heq
  obtain ⟨-, rfl⟩ := hdom a rest _ (hrest.imp fun c hc => hc.1) (stops_arrow _) heq
  exact not_stops_arrow _ hrest

private theorem legibleAt_render_of_not_isFn (ht : t.isFn = false) : LegibleAt render Ends t := by
  intro u rest rest' hrest hrest' heq
  cases hu : u.isFn with
  | false =>
    rw [← renderDom_of_not_isFn ht, ← renderDom_of_not_isFn hu] at heq
    exact legibleAt_renderDom (by simp [ht]) u rest rest' (hrest.imp fun c hc => hc.1)
      (hrest'.imp fun c hc => hc.1) heq
  | true =>
    obtain ⟨c, d, rfl⟩ := exists_fn_of_isFn hu
    exact absurd heq (render_append_ne_fn ht c d hrest)

private theorem legibleAt_render_fn {a b : Ty} (ha : LegibleAt render Ends a)
    (hb : LegibleAt render Ends b) : LegibleAt render Ends (fn a b) := by
  intro u rest rest' hrest hrest' heq
  cases hu : u.isFn with
  | false => exact absurd heq.symm (render_append_ne_fn hu a b hrest')
  | true =>
    obtain ⟨c, d, rfl⟩ := exists_fn_of_isFn hu
    simp only [render_fn, String.toList_append, List.append_assoc] at heq
    obtain ⟨rfl, htail⟩ :=
      legibleAt_renderDom (fun _ => ha) c _ _ (stops_arrow _) (stops_arrow _) heq
    obtain ⟨rfl, rfl⟩ := hb d rest rest' hrest hrest' (List.append_cancel_left htail)
    exact ⟨rfl, rfl⟩

theorem legible_render : Legible render Ends := by
  intro t
  induction t with
  | int => exact legibleAt_render_of_not_isFn rfl
  | bool => exact legibleAt_render_of_not_isFn rfl
  | var v => exact legibleAt_render_of_not_isFn rfl
  | fn a b iha ihb => exact legibleAt_render_fn iha ihb

end Ty

/-! ### Schemes and substitutions -/

namespace Scheme

/-- A scheme that quantifies something is written as the list of its binders and its body. -/
theorem legible_quantified :
    Legible (fun pair : List Nat × Ty => "∀" ++
      ((" ".intercalate (pair.1.map Ty.varName) ++ ". ") ++ pair.2.render)) Ty.Ends := by
  have hbinders :
      Legible (fun binders : List Nat => " ".intercalate (binders.map Ty.varName) ++ ". ")
      (fun _ => True) :=
    Ty.legible_varName.list (s := ' ') (c := '.') rfl rfl rfl rfl (by decide) fun v =>
      ⟨'a', by simp [Ty.varName], by decide⟩
  exact (hbinders.append Ty.legible_render fun t rest _ c _ => trivial).after "∀"

private theorem render_of_not_isMono {σ : Scheme} (hσ : σ.isMono = false) :
    σ.render = "∀" ++
      ((" ".intercalate (σ.binders.toList.map Ty.varName) ++ ". ") ++ σ.body.render) := by
  simp [render, hσ, String.append_assoc]

theorem render_ne_of_isMono {σ τ : Scheme} (hσ : σ.isMono = true) (hτ : τ.isMono = false) :
    σ.render ≠ τ.render := by
  intro heq
  obtain ⟨u, hu⟩ := σ.body.head?_render
  rw [render, if_pos hσ, render_of_not_isMono hτ] at heq
  rw [heq] at hu
  cases u <;> simp [Ty.initial] at hu

theorem render_injective : Function.Injective render := by
  intro σ τ heq
  have hparts : σ.binders = τ.binders ∧ σ.body = τ.body := by
    cases hσ : σ.isMono with
    | true =>
      cases hτ : τ.isMono with
      | true =>
        rw [render, if_pos hσ, render, if_pos hτ] at heq
        exact ⟨(VarSet.isEmpty_iff.mp hσ).trans (VarSet.isEmpty_iff.mp hτ).symm,
          Ty.legible_render.injective heq⟩
      | false => exact absurd heq (render_ne_of_isMono hσ hτ)
    | false =>
      cases hτ : τ.isMono with
      | true => exact absurd heq.symm (render_ne_of_isMono hτ hσ)
      | false =>
        rw [render_of_not_isMono hσ, render_of_not_isMono hτ] at heq
        obtain ⟨hbinders, hbody⟩ := Prod.mk.inj (legible_quantified.injective heq)
        have hmembers : σ.binders.toList = τ.binders.toList := hbinders
        exact ⟨VarSet.ext fun v => by rw [← VarSet.mem_toList, hmembers, VarSet.mem_toList], hbody⟩
  exact congr (congrArg Scheme.mk hparts.1) hparts.2

end Scheme

namespace Subst

private theorem legible_entry :
    Legible (fun entry : Nat × Ty => Ty.varName entry.1 ++ (" ↦ " ++ entry.2.render)) Ty.Ends := by
  have hnext : ∀ (t : Ty) rest, Stops Ty.Ends rest →
      Stops (fun c => c.isDigit = false) ((" ↦ " ++ t.render).toList ++ rest) := by
    intro t rest _
    rw [String.toList_append, List.append_assoc]
    exact Text.stops_append (c := ' ') (by simp) rfl
  have hentry := Ty.legible_varName.append (Ty.legible_render.after " ↦ ") hnext
  exact hentry

theorem render_injective : Function.Injective render := by
  have hlist : Legible (fun entries : List (Nat × Ty) =>
      "\x7b" ++
          (", ".intercalate (entries.map fun entry => Ty.varName entry.1 ++
          (" ↦ " ++ entry.2.render)) ++ "\x7d")) (fun _ => True) :=
    (legible_entry.list (s := ',') (c := '\x7d') rfl rfl ⟨rfl, by decide⟩ ⟨rfl, by decide⟩
      (by decide)
      fun entry => ⟨'a', by simp [Ty.varName], by decide⟩).after "\x7b"
  intro s r heq
  apply OrderedMap.ext
  apply hlist.injective
  simpa only [render, String.append_assoc] using heq

end Subst

/-- Types that are written alike are equal. So are schemes, with the same binders and the same body,
and substitutions, with the same entries in the same order. -/
theorem render_unambiguous :
    Function.Injective Ty.render ∧ Function.Injective Scheme.render ∧
      Function.Injective Subst.render :=
  ⟨Ty.legible_render.injective, Scheme.render_injective, Subst.render_injective⟩

end HindleyMilner
