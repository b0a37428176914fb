import HindleyMilner.Term
import HindleyMilner.Proofs.Text.Words

/-!
# Terms are written unambiguously

Of the parts of a term only two kinds are put in parentheses: the function of an application if it
is an abstraction or a let, and its argument if it is neither a literal nor a variable. Nothing
marks where the body of an abstraction or the first term of a let ends. Still, terms whose names are
identifiers are equal if they are written alike (`Term.render_eq_iff_of_named`).

Literals, names and keywords are words, and a word is read as far as it goes. An application is
written as a list of factors with blanks between them, the innermost function first; each factor is
a word or stands in parentheses. Such a list ends where no factor can follow: at the end of the
text, before a closing parenthesis, and before the word `in`, which is no identifier.
-/

namespace HindleyMilner.Term

open Text (IsWord IsIdentifier EndsWord)

variable {e e' a a' : Term} {rest rest' : List Char}

/-- All names of a term, those of variables and those that are bound. -/
def names : Term → List String
  | int _ => []
  | bool _ => []
  | var name => [name]
  | app func arg => func.names ++ arg.names
  | abs param body => param :: body.names
  | letIn name init body => name :: (init.names ++ body.names)

def Named (e : Term) : Prop := ∀ name ∈ e.names, IsIdentifier name

instance (e : Term) : Decidable e.Named :=
  inferInstanceAs (Decidable (∀ name ∈ e.names, IsIdentifier name))

private theorem named_app {func arg : Term} : (app func arg).Named ↔ func.Named ∧ arg.Named := by
  simp only [Named, names, List.mem_append, or_imp, forall_and]

private theorem named_abs {param : String} {body : Term} :
    (abs param body).Named ↔ IsIdentifier param ∧ body.Named := by
  simp only [Named, names, List.mem_cons, forall_eq_or_imp]

private theorem named_letIn {name : String} {init body : Term} :
    (letIn name init body).Named ↔ IsIdentifier name ∧ init.Named ∧ body.Named := by
  simp only [Named, names, List.mem_cons, List.mem_append, or_imp, forall_and, forall_eq]

/-! ### Literals and variables are words -/

private theorem isIdentifier_of_var {name : String} (hnames : (var name).Named) :
    IsIdentifier name :=
  hnames name (by simp [names])

private theorem isWord_render (he : e.isAtomic = true) (hnames : e.Named) : IsWord e.render := by
  cases e with
  | int value => exact Text.isWord_toString_int value
  | bool value => cases value <;> decide
  | var name => exact (isIdentifier_of_var hnames).isWord
  | _ => cases he

/-- A literal or a variable is never written as a keyword is. -/
theorem render_not_mem_keywords (he : e.isAtomic = true) (hnames : e.Named) :
    e.render ∉ Text.keywords := by
  intro hkeyword
  have hreserved : e.render ∈ Text.reserved := List.mem_append_left _ hkeyword
  cases e with
  | int value => exact Text.toString_int_ne value (Text.head_of_mem_reserved _ hreserved) rfl
  | bool value =>
    cases value
    · exact absurd hkeyword (by decide)
    · exact absurd hkeyword (by decide)
  | var name => exact (isIdentifier_of_var hnames).2.2 hreserved
  | _ => cases he

private theorem render_bool_ne_var (value : Bool) {name : String} (hnames : (var name).Named) :
    (bool value).render ≠ (var name).render := by
  intro heq
  have hreserved : (bool value).render ∈ Text.reserved := by cases value <;> decide
  rw [heq] at hreserved
  exact (isIdentifier_of_var hnames).2.2 hreserved

private theorem eq_of_render_eq (he : e.isAtomic = true) (he' : e'.isAtomic = true)
    (hnames : e.Named) (hnames' : e'.Named) (heq : e.render = e'.render) : e = e' := by
  have hbool : ∀ value, (bool value).render.toList.head?.any Text.isLetter = true := by decide
  cases e with
  | int m =>
    cases e' with
    | int n => rw [Text.toString_int_injective heq]
    | bool value => exact absurd heq (Text.toString_int_ne m (hbool value))
    | var name => exact absurd heq (Text.toString_int_ne m (isIdentifier_of_var hnames').1)
    | _ => cases he'
  | bool value =>
    cases e' with
    | int n => exact absurd heq.symm (Text.toString_int_ne n (hbool value))
    | bool value' =>
      revert heq
      cases value <;> cases value' <;> decide
    | var name => exact absurd heq (render_bool_ne_var value hnames')
    | _ => cases he'
  | var name =>
    cases e' with
    | int n => exact absurd heq.symm (Text.toString_int_ne n (isIdentifier_of_var hnames).1)
    | bool value => exact absurd heq.symm (render_bool_ne_var value hnames)
    | var name' => exact congrArg var heq
    | _ => cases he'
  | _ => cases he

/-! ### Factors -/

/-- What a term looks like as an argument. -/
def renderFactor (e : Term) : String := if e.isAtomic then e.render else "(" ++ e.render ++ ")"

/-- The innermost function of nested applications, and then the arguments. -/
def factors : Term → List Term
  | app func arg => func.factors ++ [arg]
  | e => [e]

/-- Each factor has a blank in front. -/
def renderFactors (items : List Term) : List Char :=
  items.flatMap fun e => ' ' :: e.renderFactor.toList

private theorem renderFactors_append (items more : List Term) :
    renderFactors (items ++ more) = renderFactors items ++ renderFactors more :=
  List.flatMap_append

private theorem renderFactors_cons (e : Term) (items : List Term) :
    renderFactors (e :: items) = ' ' :: (e.renderFactor.toList ++ renderFactors items) :=
  rfl

private theorem factors_ne_nil (e : Term) : e.factors ≠ [] := by
  cases e <;> simp [factors]

theorem factors_eq_singleton (he : e.isAtomic = true ∨ e.isOpenEnded = true) : e.factors = [e] := by
  cases e with
  | app func arg => cases he <;> contradiction
  | _ => rfl

private theorem isOpenEnded_of_isAtomic (he : e.isAtomic = true) : e.isOpenEnded = false := by
  cases e with
  | abs param body => cases he
  | letIn name init body => cases he
  | _ => rfl

private theorem factors_injective (heq : e.factors = e'.factors) : e = e' := by
  induction e generalizing e' with
  | app func arg ih =>
    cases e' with
    | app func' arg' =>
      obtain ⟨hfunc, harg⟩ := List.append_inj' heq rfl
      rw [ih hfunc, List.singleton_inj.mp harg]
    | _ => exact absurd (congrArg List.length heq) (by simp [factors, factors_ne_nil])
  | _ =>
    cases e' with
    | app func' arg' => exact absurd (congrArg List.length heq) (by simp [factors, factors_ne_nil])
    | _ => exact List.singleton_inj.mp heq

private theorem renderFactor_of_isAtomic (he : e.isAtomic = true) : e.renderFactor = e.render :=
  if_pos he

private theorem renderFactor_of_not_isAtomic (he : e.isAtomic = false) :
    e.renderFactor.toList = '(' :: (e.render.toList ++ [')']) := by
  simp [renderFactor, he]

private theorem renderFactor_of_isOpenEnded (he : e.isOpenEnded = true) :
    e.renderFactor = "(" ++ e.render ++ ")" := by
  have hnot : ¬ e.isAtomic = true := fun hatom => by simp [isOpenEnded_of_isAtomic hatom] at he
  exact if_neg hnot

theorem render_app (func arg : Term) :
    (app func arg).render = (if func.isOpenEnded then "(" ++ func.render ++ ")" else func.render) ++
      " " ++ arg.renderFactor :=
  rfl

/-- Only abstractions and lets are not written as their factors. -/
theorem cons_render (he : e.isOpenEnded = false) :
    ' ' :: e.render.toList = renderFactors e.factors := by
  have hatom : ∀ e : Term, e.isAtomic = true →
      ' ' :: e.render.toList = renderFactors e.factors := by
    intro e hatom
    simp [factors_eq_singleton (.inl hatom), renderFactors, renderFactor_of_isAtomic hatom]
  induction e with
  | int value => exact hatom _ rfl
  | bool value => exact hatom _ rfl
  | var name => exact hatom _ rfl
  | app func arg ih =>
    rw [factors, renderFactors_append]
    cases hfunc : func.isOpenEnded with
    | true =>
      rw [render_app, if_pos hfunc, ← renderFactor_of_isOpenEnded hfunc,
        factors_eq_singleton (.inr hfunc)]
      simp [renderFactors]
    | false =>
      rw [render_app, if_neg (by simp [hfunc]), ← ih hfunc]
      simp [renderFactors]
  | _ => cases he

private theorem Named.of_mem_factors (hnames : e.Named) (ha : a ∈ e.factors) : a.Named := by
  induction e with
  | app func arg ih =>
    obtain ⟨hfunc, harg⟩ := named_app.mp hnames
    cases List.mem_append.mp ha with
    | inl hin => exact ih hfunc hin
    | inr hlast => exact List.mem_singleton.mp hlast ▸ harg
  | _ => exact List.mem_singleton.mp ha ▸ hnames

/-- An application is reached from its factors. -/
theorem factors_induction {P : Term → Prop} (atom : ∀ e, e.isAtomic = true → P e)
    (abs : ∀ param body, P body → P (abs param body))
    (letIn : ∀ name init body, P init → P body → P (letIn name init body))
    (app : ∀ func arg, (∀ a ∈ (app func arg).factors, P a) → P (app func arg)) (e : Term) :
    P e := by
  have hboth : (∀ a ∈ e.factors, P a) ∧ P e := by
    have hself : ∀ e, e.factors = [e] → P e → (∀ a ∈ e.factors, P a) ∧ P e := by
      intro e hfactors he
      exact ⟨fun a ha => List.mem_singleton.mp (hfactors ▸ ha) ▸ he, he⟩
    induction e with
    | int value => exact hself _ rfl (atom _ rfl)
    | bool value => exact hself _ rfl (atom _ rfl)
    | var name => exact hself _ rfl (atom _ rfl)
    | abs param body ih => exact hself _ rfl (abs _ _ ih.2)
    | letIn name init body ihinit ihbody => exact hself _ rfl (letIn _ _ _ ihinit.2 ihbody.2)
    | app func arg ihfunc iharg =>
      have hfactors : ∀ a ∈ (Term.app func arg).factors, P a := by
        intro a ha
        cases List.mem_append.mp ha with
        | inl hin => exact ihfunc.1 a hin
        | inr hlast => exact List.mem_singleton.mp hlast ▸ iharg.2
      exact ⟨hfactors, app func arg hfactors⟩
  exact hboth.2

/-! ### Where a term ends -/

/-- What may follow a term: nothing, a closing parenthesis, or the word `in`. -/
inductive Closes : List Char → Prop
  | nothing : Closes []
  | parenthesis (rest : List Char) : Closes (')' :: rest)
  | keyword (rest : List Char) : Closes (" in ".toList ++ rest)

private theorem Closes.endsWord (h : Closes rest) : EndsWord rest := by
  cases h with
  | nothing => exact Text.stops_nil
  | parenthesis rest => exact Text.stops_cons.mpr rfl
  | keyword rest => exact Text.stops_cons.mpr rfl

private theorem endsWord_renderFactors (items : List Term) (hrest : EndsWord rest) :
    EndsWord (renderFactors items ++ rest) := by
  cases items with
  | nil => exact hrest
  | cons e items => exact Text.stops_cons.mpr rfl

/-- The term can be told from what closes it. -/
def Told (e : Term) : Prop :=
  ∀ e' rest rest', e'.Named → Closes rest → Closes rest' →
    e.render.toList ++ rest = e'.render.toList ++ rest' → e = e' ∧ rest = rest'

theorem renderFactor_ne_cons (hnames : a.Named) {mark : Char} (hmark : Text.isWordChar mark = false)
    (hne : mark ≠ '(') :
    a.renderFactor.toList ++ rest ≠ mark :: rest' := by
  cases ha : a.isAtomic with
  | true =>
    rw [renderFactor_of_isAtomic ha]
    exact (isWord_render ha hnames).append_ne_cons hmark
  | false =>
    rw [renderFactor_of_not_isAtomic ha, List.cons_append, ne_eq, List.cons.injEq]
    intro heq
    exact hne heq.1.symm

theorem renderFactor_ne_keyword (hnames : a.Named) (hrest : EndsWord rest) (hrest' : EndsWord rest')
    {keyword : String} (hkeyword : keyword ∈ Text.keywords) :
    a.renderFactor.toList ++ rest ≠ keyword.toList ++ rest' := by
  intro heq
  have hword := Text.isWord_of_mem_keywords keyword hkeyword
  cases ha : a.isAtomic with
  | true =>
    rw [renderFactor_of_isAtomic ha] at heq
    obtain ⟨hsame, -⟩ := (isWord_render ha hnames).append_inj hword hrest hrest' heq
    exact render_not_mem_keywords ha hnames (hsame ▸ hkeyword)
  | false =>
    rw [renderFactor_of_not_isAtomic ha, List.cons_append] at heq
    exact hword.append_ne_cons rfl heq.symm

private theorem renderFactor_inj (ha : a.isAtomic = false → a.Told) (hnames : a.Named)
    (hnames' : a'.Named) (hrest : EndsWord rest) (hrest' : EndsWord rest')
    (heq : a.renderFactor.toList ++ rest = a'.renderFactor.toList ++ rest') :
    a = a' ∧ rest = rest' := by
  cases hatom : a.isAtomic with
  | true =>
    rw [renderFactor_of_isAtomic hatom] at heq
    cases hatom' : a'.isAtomic with
    | true =>
      rw [renderFactor_of_isAtomic hatom'] at heq
      obtain ⟨hsame, hrests⟩ :=
        (isWord_render hatom hnames).append_inj (isWord_render hatom' hnames') hrest hrest' heq
      exact ⟨eq_of_render_eq hatom hatom' hnames hnames' hsame, hrests⟩
    | false =>
      rw [renderFactor_of_not_isAtomic hatom'] at heq
      exact absurd heq ((isWord_render hatom hnames).append_ne_cons rfl)
  | false =>
    rw [renderFactor_of_not_isAtomic hatom] at heq
    cases hatom' : a'.isAtomic with
    | true =>
      rw [renderFactor_of_isAtomic hatom'] at heq
      exact absurd heq.symm ((isWord_render hatom' hnames').append_ne_cons rfl)
    | false =>
      rw [renderFactor_of_not_isAtomic hatom'] at heq
      simp only [List.cons_append, List.append_assoc, List.cons.injEq, true_and,
        List.nil_append] at heq
      obtain ⟨hsame, hrests⟩ := ha hatom a' _ _ hnames' (.parenthesis rest) (.parenthesis rest') heq
      exact ⟨hsame, (List.cons.inj hrests).2⟩

/-- Where no factor can follow, the factors end. -/
theorem renderFactors_cons_ne (hnames : a.Named) (items : List Term) (hrest : Closes rest)
    (hrest' : Closes rest') : renderFactors (a :: items) ++ rest' ≠ rest := by
  intro heq
  rw [renderFactors_cons, List.cons_append, List.append_assoc] at heq
  cases hrest with
  | nothing => cases heq
  | parenthesis rest => cases (List.cons.inj heq).1
  | keyword rest =>
    have hkeyword : "in" ∈ Text.keywords := by decide
    have hends : EndsWord (' ' :: rest) := Text.stops_cons.mpr rfl
    exact renderFactor_ne_keyword hnames (endsWord_renderFactors items hrest'.endsWord) hends
      hkeyword (List.cons.inj heq).2

private theorem renderFactors_inj {items items' : List Term}
    (htold : ∀ a ∈ items, a.isAtomic = false → a.Told) (hnames : ∀ a ∈ items, a.Named)
    (hnames' : ∀ a ∈ items', a.Named) (hrest : Closes rest) (hrest' : Closes rest')
    (heq : renderFactors items ++ rest = renderFactors items' ++ rest') :
    items = items' ∧ rest = rest' := by
  induction items generalizing items' with
  | nil =>
    cases items' with
    | nil => exact ⟨rfl, heq⟩
    | cons a' items' =>
      exact absurd heq.symm
        (renderFactors_cons_ne (hnames' a' List.mem_cons_self) items' hrest hrest')
  | cons a items ih =>
    cases items' with
    | nil =>
      exact absurd heq (renderFactors_cons_ne (hnames a List.mem_cons_self) items hrest' hrest)
    | cons a' items' =>
      simp only [renderFactors_cons, List.cons_append, List.append_assoc, List.cons.injEq,
        true_and] at heq
      obtain ⟨rfl, htail⟩ :=
        renderFactor_inj (htold a List.mem_cons_self) (hnames a List.mem_cons_self)
          (hnames' a' List.mem_cons_self)
        (endsWord_renderFactors items hrest.endsWord)
          (endsWord_renderFactors items' hrest'.endsWord) heq
      obtain ⟨rfl, hrests⟩ :=
        ih (fun b hb => htold b (List.mem_cons_of_mem _ hb))
          (fun b hb => hnames b (List.mem_cons_of_mem _ hb))
        (fun b hb => hnames' b (List.mem_cons_of_mem _ hb)) htail
      exact ⟨rfl, hrests⟩

/-! ### Whole terms -/

private theorem exists_factor (he : e.isOpenEnded = false) (hnames : e.Named)
    (hrest : Closes rest) :
    ∃ (a : Term) (more : List Char), a.Named ∧ EndsWord more ∧
      e.render.toList ++ rest = a.renderFactor.toList ++ more := by
  obtain ⟨a, items, hfactors⟩ := List.exists_cons_of_ne_nil e.factors_ne_nil
  have hrender := cons_render he
  rw [hfactors, renderFactors_cons, List.cons.injEq] at hrender
  refine ⟨a, renderFactors items ++ rest, hnames.of_mem_factors (hfactors ▸ List.mem_cons_self),
    endsWord_renderFactors items hrest.endsWord, ?_⟩
  rw [hrender.2, List.append_assoc]

private theorem toList_render_abs (param : String) (body : Term) :
    (abs param body).render.toList = 'λ' :: (param.toList ++ '.' :: body.render.toList) := by
  simp [render]

private theorem toList_render_letIn (name : String) (init body : Term) :
    (letIn name init body).render.toList =
      "let".toList ++ ' ' ::
        (name.toList ++ ' ' :: '=' :: ' ' ::
        (init.render.toList ++ (" in ".toList ++ body.render.toList))) := by
  simp [render]

private theorem render_ne_abs (he : e.isOpenEnded = false) (hnames : e.Named) (hrest : Closes rest)
    (param : String) (body : Term) :
    e.render.toList ++ rest ≠ (abs param body).render.toList ++ rest' := by
  obtain ⟨a, more, ha, -, heq⟩ := exists_factor he hnames hrest
  have hmark : Text.isWordChar 'λ' = false := by decide
  rw [heq, toList_render_abs, List.cons_append]
  exact renderFactor_ne_cons ha hmark (by decide)

private theorem render_ne_letIn (he : e.isOpenEnded = false) (hnames : e.Named)
    (hrest : Closes rest) (name : String) (init body : Term) :
    e.render.toList ++ rest ≠ (letIn name init body).render.toList ++ rest' := by
  obtain ⟨a, more, ha, hmore, heq⟩ := exists_factor he hnames hrest
  have hkeyword : "let" ∈ Text.keywords := by decide
  rw [heq, toList_render_letIn, List.append_assoc]
  exact renderFactor_ne_keyword ha hmore (Text.stops_cons.mpr (by decide)) hkeyword

private theorem render_abs_ne_letIn (param name : String) (init body body' : Term) :
    (abs param body).render.toList ++ rest ≠ (letIn name init body').render.toList ++ rest' := by
  rw [toList_render_abs, toList_render_letIn]
  simp

/-- Factors that can be told from what closes them make a whole that can. -/
theorem told_of_factors (he : e.isOpenEnded = false) (hnames : e.Named)
    (htold : ∀ a ∈ e.factors, a.isAtomic = false → a.Told) : e.Told := by
  intro e' rest rest' hnames' hrest hrest' heq
  cases he' : e'.isOpenEnded with
  | true =>
    cases e' with
    | abs param body => exact absurd heq (render_ne_abs he hnames hrest param body)
    | letIn name init body => exact absurd heq (render_ne_letIn he hnames hrest name init body)
    | _ => cases he'
  | false =>
    have hfactors : renderFactors e.factors ++ rest = renderFactors e'.factors ++ rest' := by
      rw [← cons_render he, ← cons_render he', List.cons_append, heq, List.cons_append]
    obtain ⟨hsame, hrests⟩ :=
      renderFactors_inj htold (fun a => hnames.of_mem_factors) (fun a => hnames'.of_mem_factors)
        hrest hrest' hfactors
    exact ⟨factors_injective hsame, hrests⟩

private theorem told_abs {param : String} {body : Term} (hnames : (abs param body).Named)
    (hbody : body.Told) : (abs param body).Told := by
  intro e' rest rest' hnames' hrest hrest' heq
  cases he' : e'.isOpenEnded with
  | false => exact absurd heq.symm (render_ne_abs he' hnames' hrest' param body)
  | true =>
    cases e' with
    | abs param' body' =>
      obtain ⟨hparam, -⟩ := named_abs.mp hnames
      obtain ⟨hparam', hnames''⟩ := named_abs.mp hnames'
      simp only [toList_render_abs, List.cons_append, List.append_assoc, List.cons.injEq,
        true_and] at heq
      obtain ⟨rfl, htail⟩ :=
        hparam.isWord.append_inj hparam'.isWord (Text.stops_cons.mpr rfl) (Text.stops_cons.mpr rfl)
          heq
      obtain ⟨rfl, rfl⟩ := hbody body' rest rest' hnames'' hrest hrest' (List.cons.inj htail).2
      exact ⟨rfl, rfl⟩
    | letIn name init body' => exact absurd heq (render_abs_ne_letIn param name init body body')
    | _ => cases he'

private theorem told_letIn {name : String} {init body : Term}
    (hnames : (letIn name init body).Named) (hinit : init.Told) (hbody : body.Told) :
    (letIn name init body).Told := by
  intro e' rest rest' hnames' hrest hrest' heq
  cases he' : e'.isOpenEnded with
  | false => exact absurd heq.symm (render_ne_letIn he' hnames' hrest' name init body)
  | true =>
    cases e' with
    | abs param body' => exact absurd heq.symm (render_abs_ne_letIn param name init body' body)
    | letIn name' init' body' =>
      obtain ⟨hname, -⟩ := named_letIn.mp hnames
      obtain ⟨hname', hnames₁, hnames₂⟩ := named_letIn.mp hnames'
      simp only [toList_render_letIn, List.append_assoc, List.cons_append,
        List.append_cancel_left_eq, List.cons.injEq, true_and] at heq
      obtain ⟨rfl, htail⟩ :=
        hname.isWord.append_inj hname'.isWord (Text.stops_cons.mpr rfl) (Text.stops_cons.mpr rfl)
          heq
      simp only [List.cons.injEq, true_and] at htail
      -- The word `in` closes the first term, whatever that term ends with.
      obtain ⟨rfl, hin⟩ := hinit init' _ _ hnames₁ (.keyword _) (.keyword _) htail
      obtain ⟨rfl, rfl⟩ := hbody body' rest rest' hnames₂ hrest hrest' (List.append_cancel_left hin)
      exact ⟨rfl, rfl⟩
    | _ => cases he'

private theorem Named.told (hnames : e.Named) : e.Told := by
  induction e using factors_induction with
  | atom e he =>
    apply told_of_factors (isOpenEnded_of_isAtomic he) hnames
    intro a ha hnot
    rw [factors_eq_singleton (.inl he), List.mem_singleton] at ha
    simp [ha, he] at hnot
  | abs param body ih => exact told_abs hnames (ih (named_abs.mp hnames).2)
  | letIn name init body ihinit ihbody =>
    obtain ⟨-, hinit, hbody⟩ := named_letIn.mp hnames
    exact told_letIn hnames (ihinit hinit) (ihbody hbody)
  | app func arg ih =>
    exact told_of_factors rfl hnames fun a ha _ => ih a ha (hnames.of_mem_factors ha)

/-- Terms whose names are identifiers are written alike only if they are equal. -/
theorem render_eq_iff_of_named (hnames : e.Named) (hnames' : e'.Named) :
    e.render = e'.render ↔ e = e' := by
  constructor
  · intro heq
    exact (hnames.told e' [] [] hnames' .nothing .nothing (by rw [heq])).1
  · intro heq
    rw [heq]

/-- An application in the body of a let. -/
def appliedInside : Term :=
  letIn "f" (abs "x" (letIn "y" (var "x") (var "y"))) (app (var "f") (int (-1)))

/-- The same words, but the let is the function. -/
def appliedOutside : Term :=
  app (letIn "f" (abs "x" (letIn "y" (var "x") (var "y"))) (var "f")) (int (-1))

theorem render_eq_iff_of_named_inside :
    appliedInside.Named ∧ appliedOutside.Named ∧ appliedInside.render ≠ appliedOutside.render := by
  have hinside : appliedInside.Named := by decide
  have houtside : appliedOutside.Named := by decide
  exact ⟨hinside, houtside, mt (render_eq_iff_of_named hinside houtside).mp (by decide)⟩

-- A name that is no identifier may look like an application.
example : (var "f x").render = (app (var "f") (var "x")).render := by decide

end HindleyMilner.Term
