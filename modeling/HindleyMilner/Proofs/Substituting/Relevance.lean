import HindleyMilner.Proofs.Substituting.Soundness

/-!
# Relevant bindings

Algorithm W looks up only the names that are free in the term. The other bindings of the context are
not idle, though: each `let` leaves alone the variables that are free anywhere in the context,
relevant or not. They make no difference all the same. A type that is generalized is made of
variables that are free in the context because of some relevant binding, or else were drawn in the
run, and what the run has found for variables of other bindings is nothing at all.

So two contexts that agree on the free names of a term give one run, down to the events, as long as
both are ready for the supply.
-/

namespace HindleyMilner

/-- The names that occur free in a term. -/
def Term.free : Term → List String
  | int _ => []
  | bool _ => []
  | var name => [name]
  | app func arg => func.free ++ arg.free
  | abs param body => body.free.filter (· ≠ param)
  | letIn name init body => init.free ++ body.free.filter (· ≠ name)

namespace Context

variable {Γ Δ : Context} {names : List String} {n n' : Nat} {S : Subst} {t : Ty}

/-- The contexts have the same bindings for the listed names. -/
def AgreesOn (names : List String) (Γ Δ : Context) : Prop := ∀ x ∈ names, Δ.get? x = Γ.get? x

theorem AgreesOn.symm (h : AgreesOn names Γ Δ) : AgreesOn names Δ Γ := fun x hx => (h x hx).symm

theorem AgreesOn.left {others : List String} (h : AgreesOn (names ++ others) Γ Δ) :
    AgreesOn names Γ Δ :=
  fun x hx => h x (List.mem_append_left others hx)

theorem AgreesOn.right {others : List String} (h : AgreesOn (names ++ others) Γ Δ) :
    AgreesOn others Γ Δ :=
  fun x hx => h x (List.mem_append_right names hx)

theorem AgreesOn.subst (h : AgreesOn names Γ Δ) (S : Subst) :
    AgreesOn names (Γ.subst S) (Δ.subst S) := by
  intro x hx
  simp [h x hx]

theorem AgreesOn.insert {x : String} (h : AgreesOn (names.filter (· ≠ x)) Γ Δ) (σ : Scheme) :
    AgreesOn names (Γ.insert x σ) (Δ.insert x σ) := by
  intro y hy
  rw [OrderedMap.get?_insert, OrderedMap.get?_insert]
  by_cases heq : x = y
  · simp [heq]
  · rw [if_neg heq, if_neg heq]
    apply h
    simp [hy, Ne.symm heq]

/-- Of the variables of a type that was found in both contexts, what the run has left free in one is
free in the other. -/
theorem Footprint.mem_free_subst_of (h : Footprint Δ n S t n') (hΓ : Γ.Ready n) (hΔ : Δ.Ready n)
    {w : Nat} (hw : w ∈ t.vars) (hfree : w ∈ (Γ.subst S).free) :
    w ∈ (Δ.subst S).free := by
  have hclear := hΔ.clear h.within
  obtain ⟨v, hv, hwv⟩ := exists_of_mem_free_subst hfree
  have hold : v ∈ Δ.reach n n' → v ∈ Δ.free := by
    intro hreach
    rcases hreach with hin | ⟨hge, -⟩
    · exact hin
    · have := hΓ.free_lt v hv
      omega
  by_cases hmem : v ∈ S
  · exact hclear.mem_free_subst (hold (h.within.keys v hmem)) hwv
  · have heq : w = v := by simpa [Subst.image_of_not_mem hmem] using hwv
    subst heq
    exact hclear.mem_free_subst (hold (h.reached w hw)) hwv

theorem generalize_congr (h : Footprint Γ n S t n') (h' : Footprint Δ n S t n') (hΓ : Γ.Ready n)
    (hΔ : Δ.Ready n) :
    (Δ.subst S).generalize t = (Γ.subst S).generalize t := by
  have hbinders : t.vars \ (Δ.subst S).free = t.vars \ (Γ.subst S).free := by
    ext w
    rw [VarSet.mem_sdiff, VarSet.mem_sdiff]
    refine and_congr_right fun hw => not_congr ⟨fun hfree => ?_, fun hfree => ?_⟩
    · exact h.mem_free_subst_of hΔ hΓ hw hfree
    · exact h'.mem_free_subst_of hΓ hΔ hw hfree
  rw [generalize, generalize, hbinders]

/-- What is known of a run that ends alike in both contexts. -/
theorem typeBySubst_footprints {e e' : Term} {s s' : Session} {mode : Supply.Mode} {forest : Forest}
    (hmode : mode ≠ .shared) (hs : s.Stands mode n forest) (halike : s.Alike s') (hΓ : Γ.Ready n)
    (hΔ : Δ.Ready n) (hruns : Infer.Alike (Γ.typeBySubst e s) (Δ.typeBySubst e' s')) :
    Infer.Meets (fun r s₁ => ∃ n₁, s₁.Stands mode n₁ forest ∧ Footprint Γ n r.1 r.2 n₁ ∧
      Footprint Δ n r.1 r.2 n₁) (fun _ _ => True) (Γ.typeBySubst e s) := by
  have hright := hruns.meets (typeBySubst_footprint e' hmode (hs.alike halike) hΔ.free_lt)
  apply ((typeBySubst_footprint e hmode hs hΓ.free_lt).and hright).imp
  · intro r s₁ h
    obtain ⟨⟨n₁, hs₁, h₁⟩, s₁', halike₁, n₁', hs₁', h₁'⟩ := h
    obtain rfl := (hs₁.alike halike₁).next_eq hs₁'
    exact ⟨n₁, hs₁, h₁, h₁'⟩
  · exact fun _ _ _ => trivial

/-- Contexts that agree on the free names of a term give the same run. -/
theorem typeBySubst_congr (term : Term) {Γ Δ : Context} {s : Session} {mode : Supply.Mode} {n : Nat}
    {forest : Forest} (hmode : mode ≠ .shared) (hs : s.Stands mode n forest) (hΓ : Γ.Ready n)
    (hΔ : Δ.Ready n) (hagree : AgreesOn term.free Γ Δ) :
    Δ.typeBySubst term s = Γ.typeBySubst term s := by
  induction term generalizing Γ Δ s n with
  | int value => rfl
  | bool value => rfl
  | var name =>
    have hname : Δ.get? name = Γ.get? name := hagree name (by simp [Term.free])
    rw [typeBySubst, typeBySubst, Infer.lookup, Infer.lookup, hname]
  | app func arg ihfunc iharg =>
    apply (Infer.meets_fresh (E := fun _ _ => True) hmode hs).bind_congr rfl
    intro result s₀ h₀
    obtain ⟨rfl, hs₀⟩ := h₀
    have hΓ₀ := hΓ.mono (Nat.le_succ n)
    have hΔ₀ := hΔ.mono (Nat.le_succ n)
    have hfunc := ihfunc hs₀ hΓ₀ hΔ₀ hagree.left
    apply (typeBySubst_footprints hmode hs₀ (.refl s₀) hΓ₀ hΔ₀ (.of_eq hfunc)).bind_congr hfunc
    intro answer s₁ h₁
    obtain ⟨n₁, hs₁, h₁, h₁'⟩ := h₁
    have harg := iharg hs₁ (hΓ₀.subst h₁) (hΔ₀.subst h₁') (hagree.right.subst answer.1)
    exact Infer.bind_eq_of_eq harg _
  | abs param body ih =>
    apply (Infer.meets_fresh (E := fun _ _ => True) hmode hs).bind_congr rfl
    intro t s₀ h₀
    obtain ⟨rfl, hs₀⟩ := h₀
    have hbody := ih hs₀ (hΓ.insert_mono param) (hΔ.insert_mono param) (hagree.insert _)
    exact Infer.bind_eq_of_eq hbody _
  | letIn name init body ihinit ihbody =>
    have hinit := ihinit hs hΓ hΔ hagree.left
    apply (typeBySubst_footprints hmode hs (.refl s) hΓ hΔ (.of_eq hinit)).bind_congr hinit
    intro answer s₁ h₁
    obtain ⟨n₁, hs₁, h₁, h₁'⟩ := h₁
    obtain ⟨S₁, t₁⟩ := answer
    dsimp only at h₁ h₁' ⊢
    rw [subst_insert, subst_insert, h₁.generalize_subst_self, h₁'.generalize_subst_self,
      generalize_congr h₁ h₁' hΓ hΔ]
    apply (Infer.meets_report (E := fun _ _ => True) _ hs₁).bind_congr rfl
    intro _ s₂ hs₂
    have hΓ₁ := (hΓ.subst h₁).insert_generalize (h₁.type_lt hΓ.free_lt) name
    have hΔ₁ := (hΔ.subst h₁').insert_generalize (h₁'.type_lt hΔ.free_lt) name
    rw [generalize_congr h₁ h₁' hΓ hΔ] at hΔ₁
    have hbody := ihbody hs₂ hΓ₁ hΔ₁ ((hagree.right.subst S₁).insert _)
    exact Infer.bind_eq_of_eq hbody _

/-! ### Leaving out what is not relevant -/

/-- The part of the context that binds the listed names. -/
def restrict (Γ : Context) (names : List String) : Context := Γ.filterKeys (· ∈ names)

theorem get?_restrict (Γ : Context) (names : List String) (x : String) :
    (Γ.restrict names).get? x = if x ∈ names then Γ.get? x else none := by
  simp [restrict]

theorem agreesOn_restrict (Γ : Context) (names : List String) :
    AgreesOn names (Γ.restrict names) Γ := by
  intro x hx
  rw [get?_restrict, if_pos hx]

private theorem get?_of_get?_restrict {x : String} {σ : Scheme}
    (hget : (Γ.restrict names).get? x = some σ) : Γ.get? x = some σ := by
  rw [get?_restrict] at hget
  split at hget
  · exact hget
  · cases hget

theorem Ready.restrict (h : Γ.Ready n) (names : List String) : (Γ.restrict names).Ready n := by
  constructor
  · rw [hygienic_iff]
    intro x σ hget b hb
    obtain ⟨hbody, hnot⟩ := hygienic_iff.mp h.hygienic x σ (get?_of_get?_restrict hget) b hb
    refine ⟨hbody, fun hfree => hnot ?_⟩
    obtain ⟨y, τ, hτ, hb⟩ := mem_free_iff.mp hfree
    exact mem_free_iff.mpr ⟨y, τ, get?_of_get?_restrict hτ, hb⟩
  · intro v hv
    obtain ⟨x, σ, hget, hbody⟩ := mem_bodyVars_iff.mp hv
    exact h.bound v (mem_bodyVars_iff.mpr ⟨x, σ, get?_of_get?_restrict hget, hbody⟩)

theorem typeBySubst_restrict (term : Term) {s : Session} {mode : Supply.Mode} {forest : Forest}
    (hmode : mode ≠ .shared) (hs : s.Stands mode n forest) (hΓ : Γ.Ready n) :
    Γ.typeBySubst term s = (Γ.restrict term.free).typeBySubst term s :=
  typeBySubst_congr term hmode hs (hΓ.restrict term.free) hΓ (Γ.agreesOn_restrict term.free)

/-! ### The order of the bindings -/

private theorem free_eq_of_get?_eq (h : ∀ x, Δ.get? x = Γ.get? x) : Δ.free = Γ.free := by
  ext v
  simp only [mem_free_iff, h]

private theorem get?_subst_eq (h : ∀ x, Δ.get? x = Γ.get? x) (S : Subst) (x : String) :
    (Δ.subst S).get? x = (Γ.subst S).get? x := by
  rw [get?_subst, get?_subst, h]

private theorem get?_insert_eq (h : ∀ x, Δ.get? x = Γ.get? x) (name : String) (σ : Scheme)
    (x : String) :
    (Δ.insert name σ).get? x = (Γ.insert name σ).get? x := by
  rw [OrderedMap.get?_insert, OrderedMap.get?_insert, h]

/-- Contexts that have the same bindings in different orders give the same run, on any supply. -/
theorem typeBySubst_eq_of_get?_eq (term : Term) {Γ Δ : Context} (h : ∀ x, Δ.get? x = Γ.get? x) :
    Δ.typeBySubst term = Γ.typeBySubst term := by
  induction term generalizing Γ Δ with
  | int value => rfl
  | bool value => rfl
  | var name => rw [typeBySubst, typeBySubst, Infer.lookup, Infer.lookup, h]
  | app func arg ihfunc iharg =>
    have harg := fun S => iharg (get?_subst_eq h S)
    simp only [typeBySubst, ihfunc h, harg]
  | abs param body ih =>
    have hbody := fun σ => ih (get?_insert_eq h param σ)
    simp only [typeBySubst, hbody]
  | letIn name init body ihinit ihbody =>
    have hscheme : ∀ S t, (Δ.subst S).generalize t = (Γ.subst S).generalize t := by
      intro S t
      rw [generalize, generalize, free_eq_of_get?_eq (get?_subst_eq h S)]
    have hbody := fun S σ => ihbody (get?_subst_eq (get?_insert_eq h name σ) S)
    simp only [typeBySubst, ihinit h, hscheme, hbody]

theorem typeByLinks_eq_of_get?_eq (term : Term) {Γ Δ : Context} (h : ∀ x, Δ.get? x = Γ.get? x) :
    Δ.typeByLinks term = Γ.typeByLinks term := by
  induction term generalizing Γ Δ with
  | int value => rfl
  | bool value => rfl
  | var name => rw [typeByLinks, typeByLinks, Infer.lookup, Infer.lookup, h]
  | app func arg ihfunc iharg => simp only [typeByLinks, ihfunc h, iharg h]
  | abs param body ih =>
    have hbody := fun σ => ih (get?_insert_eq h param σ)
    simp only [typeByLinks, hbody]
  | letIn name init body ihinit ihbody =>
    have hscheme : ∀ f t, Δ.generalizeIn f t = Γ.generalizeIn f t := by
      intro f t
      rw [generalizeIn, generalizeIn, known, known, free_eq_of_get?_eq h]
    have hbody := fun σ => ihbody (get?_insert_eq h name σ)
    simp only [typeByLinks, ihinit h, hscheme, hbody]

/-- Taking a name out before it is bound anew moves its binding to the end, which makes no
difference to either algorithm. -/
theorem infer_erase_insert (Γ : Context) (name : String) (σ : Scheme) (term : Term) :
    typeBySubst ((Γ.erase name).insert name σ) term = typeBySubst (Γ.insert name σ) term ∧
      typeByLinks ((Γ.erase name).insert name σ) term = typeByLinks (Γ.insert name σ) term := by
  have hsame : ∀ x, ((Γ.erase name).insert name σ).get? x = (Γ.insert name σ).get? x := by
    intro x
    rw [OrderedMap.get?_insert, OrderedMap.get?_insert, OrderedMap.erase,
      OrderedMap.get?_filterKeys]
    by_cases heq : name = x
    · rw [if_pos heq, if_pos heq]
    · simp [heq, Ne.symm heq]
  exact ⟨typeBySubst_eq_of_get?_eq term hsame, typeByLinks_eq_of_get?_eq term hsame⟩

end Context

end HindleyMilner
