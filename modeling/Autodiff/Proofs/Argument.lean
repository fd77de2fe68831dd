import Autodiff.Kernel.Argument
import Autodiff.Proofs.Restoration

namespace Autodiff

variable {F : Type} [Scalar F]

def Vectors.withAdjoints (v : Vectors F) (adjoints : Slots F) : Vectors F :=
  { v with adjoints := adjoints }

namespace Program

variable {r base : Replay F} {fixed dynamic : List (Scalar.Cell F)} {lent : Nat}

theorem gradients_ensures (ids : List Identifier) (h : r.Stands base fixed dynamic lent) :
    (gradients ids).Ensures r fun gs r' =>
      gs = ids.map base.vectors.adjoints.get ∧ r'.Stands base fixed dynamic lent := by
  induction ids with
  | nil => exact ensures_pure ⟨rfl, h⟩
  | cons id ids ih =>
    have hact : (act (.gradient id)).Ensures r fun g r' =>
        g = base.vectors.adjoints.get id ∧ r' = r :=
      ensures_act (.ok ⟨congrArg (·.gradient id) h.vectors_eq, rfl⟩)
    refine hact.bind fun g r₁ hg => ?_
    obtain ⟨rfl, rfl⟩ := hg
    exact ih.bind fun gs r₂ h₂ => ensures_pure ⟨by rw [h₂.1, List.map_cons], h₂.2⟩

theorem takeGradients_ensures (ids : List Identifier) (h : r.Stands base fixed dynamic lent) :
    (takeGradients ids).Ensures r fun gs r' =>
      gs = base.vectors.adjoints.taken ids ∧
        r'.Stands (base.withVectors (base.vectors.withAdjoints
          (base.vectors.adjoints.scatter (ids.map fun id => (id, 0))))) fixed dynamic lent := by
  induction ids generalizing r base with
  | nil => exact ensures_pure ⟨rfl, h⟩
  | cons id ids ih =>
    have hact : (act (.takeGradient id)).Ensures r fun g r' =>
        g = base.vectors.adjoints.slot id ∧ r'.Stands (base.withVectors (base.vectors.withAdjoints
          (base.vectors.adjoints.scatter [(id, 0)]))) fixed dynamic lent := by
      have hperform : (Action.takeGradient id).perform r =
          .ok (r.vectors.adjoints.slot id, r.withVectors (r.vectors.withAdjoints
            (r.vectors.adjoints.scatter [(id, 0)]))) := by
        simp only [Action.perform, Vectors.takeGradient_eq]
        rfl
      refine ensures_act ⟨_, hperform, ?_, h.traits_eq, ?_, h.notes_eq, h.fixed_at, h.dynamic_at,
        h.lent_eq⟩
      · rw [h.vectors_eq]
      · simp only [h.vectors_eq, Replay.withVectors]
    refine hact.bind fun g r₁ h₁ => ?_
    refine (ih h₁.2).bind fun gs r₂ h₂ => ensures_pure ⟨?_, h₂.2⟩
    rw [h₁.1, h₂.1]
    rfl

theorem setGradients_ensures (ids : List Identifier) (gs : List F)
    (h : r.Stands base fixed dynamic lent) :
    (setGradients ids gs).Ensures r fun _ r' =>
      r'.Stands (base.withVectors (base.vectors.withAdjoints
        (base.vectors.adjoints.scatter (ids.zip gs)))) fixed dynamic lent := by
  induction ids generalizing r base gs with
  | nil => exact ensures_pure h
  | cons id ids ih =>
    cases gs with
    | nil => exact ensures_pure h
    | cons g gs =>
      refine Ensures.bind (Q := fun _ r' => r'.Stands (base.withVectors (base.vectors.withAdjoints
        (base.vectors.adjoints.scatter [(id, g)]))) fixed dynamic lent)
        (ensures_act (.ok ?_)) fun _ r' h' => ih gs h'
      refine ⟨h.traits_eq, ?_, h.notes_eq, h.fixed_at, h.dynamic_at, h.lent_eq⟩
      simp only [h.vectors_eq, Vectors.setGradient_eq, Replay.withVectors]
      rfl

theorem addGradients_ensures (ids : List Identifier) (gs : List F)
    (h : r.Stands base fixed dynamic lent) :
    (addGradients ids gs).Ensures r fun _ r' =>
      r'.Stands (base.withVectors (base.vectors.withAdjoints
        (base.vectors.adjoints.accumulate (ids.zip gs)))) fixed dynamic lent := by
  induction ids generalizing r base gs with
  | nil => exact ensures_pure h
  | cons id ids ih =>
    cases gs with
    | nil => exact ensures_pure h
    | cons g gs =>
      refine Ensures.bind (Q := fun _ r' => r'.Stands (base.withVectors (base.vectors.withAdjoints
        (base.vectors.adjoints.accumulate [(id, g)]))) fixed dynamic lent)
        (ensures_act (.ok ?_)) fun _ r' h' => ih gs h'
      refine ⟨h.traits_eq, ?_, h.notes_eq, h.fixed_at, h.dynamic_at, h.lent_eq⟩
      simp only [h.vectors_eq, Vectors.addGradient_eq, Replay.withVectors]
      rfl

end Program

end Autodiff
