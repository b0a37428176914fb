import HindleyMilner.Scheme
import HindleyMilner.Proofs.Substitution
import Mathlib.Data.List.Nodup
import Mathlib.Data.Set.Function

/-!
# Renaming sets and schemes

Renaming a scheme renames its binders and its body alike. Under a renaming that tells all variables
apart the free variables are renamed with them. A renaming that is known on finitely many variables
only, and tells those apart, can be completed to such a one.
-/

namespace HindleyMilner

namespace VarSet

variable {vs : VarSet} {ρ : Nat → Nat}

def map (ρ : Nat → Nat) (vs : VarSet) : VarSet := ofList (vs.toList.map ρ)

@[simp] theorem mem_map {w : Nat} : w ∈ vs.map ρ ↔ ∃ v ∈ vs, ρ v = w := by
  rw [map, mem_ofList, List.mem_map]
  rfl

theorem size_map (hinj : Set.InjOn ρ {v | v ∈ vs}) : (vs.map ρ).size = vs.size := by
  have hnodup : vs.toList.Nodup := vs.ascending.imp Nat.ne_of_lt
  have hnodup' : (vs.map ρ).toList.Nodup := (vs.map ρ).ascending.imp Nat.ne_of_lt
  have hperm : (vs.map ρ).toList.Perm (vs.toList.map ρ) := by
    rw [List.perm_ext_iff_of_nodup hnodup' (hnodup.map_on fun v hv w hw heq => hinj hv hw heq)]
    exact fun w => mem_ofList
  exact hperm.length_eq.trans (List.length_map ρ)

/-- What tells the members of a set apart is part of a renaming that tells all variables apart. -/
theorem exists_injective (hinj : Set.InjOn ρ {v | v ∈ vs}) :
    ∃ ρ' : Nat → Nat, Function.Injective ρ' ∧ ∀ v ∈ vs, ρ' v = ρ v := by
  obtain ⟨n, hn⟩ := (vs.map ρ).exists_above
  have hlt : ∀ v ∈ vs, ρ v < n := fun v hv => hn (ρ v) (mem_map.mpr ⟨v, hv, rfl⟩)
  refine ⟨fun v => if v ∈ vs then ρ v else n + v, fun v w heq => ?_, fun v hv => if_pos hv⟩
  dsimp only at heq
  by_cases hv : v ∈ vs
  · by_cases hw : w ∈ vs
    · rw [if_pos hv, if_pos hw] at heq
      exact hinj hv hw heq
    · rw [if_pos hv, if_neg hw] at heq
      have := hlt v hv
      omega
  · by_cases hw : w ∈ vs
    · rw [if_neg hv, if_pos hw] at heq
      have := hlt w hw
      omega
    · rw [if_neg hv, if_neg hw] at heq
      exact Nat.add_left_cancel heq

end VarSet

namespace Scheme

variable {σ : Scheme} {ρ : Nat → Nat}

def rename (ρ : Nat → Nat) (σ : Scheme) : Scheme := ⟨σ.binders.map ρ, σ.body.rename ρ⟩

theorem rename_congr {ρ' : Nat → Nat} (hbody : ∀ v ∈ σ.body.vars, ρ v = ρ' v)
    (hbinders : ∀ b ∈ σ.binders, ρ b = ρ' b) : σ.rename ρ = σ.rename ρ' := by
  have hset : σ.binders.map ρ = σ.binders.map ρ' := by
    apply VarSet.ext
    intro w
    rw [VarSet.mem_map, VarSet.mem_map]
    exact exists_congr fun b => and_congr_right fun hb => by rw [hbinders b hb]
  rw [rename, rename, hset, Ty.rename_congr hbody]

theorem free_rename (hρ : Function.Injective ρ) (σ : Scheme) :
    (σ.rename ρ).free = σ.free.map ρ := by
  apply VarSet.ext
  intro w
  rw [mem_free, rename, Ty.mem_vars_rename, VarSet.mem_map, VarSet.mem_map]
  constructor
  · rintro ⟨⟨v, hv, rfl⟩, hnot⟩
    exact ⟨v, mem_free.mpr ⟨hv, fun hbinder => hnot ⟨v, hbinder, rfl⟩⟩, rfl⟩
  · rintro ⟨v, hv, rfl⟩
    obtain ⟨hbody, hnot⟩ := mem_free.mp hv
    refine ⟨⟨v, hbody, rfl⟩, ?_⟩
    rintro ⟨b, hb, heq⟩
    exact hnot (hρ heq ▸ hb)

end Scheme

end HindleyMilner
