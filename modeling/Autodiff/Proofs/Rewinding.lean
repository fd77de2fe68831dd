import Autodiff.Catalogue
import Autodiff.Proofs.ProductReplay

namespace Autodiff

variable {F : Type}

def Replay.Spares [Scalar F] (r base : Replay F) (lent : Nat) : Prop :=
  ∃ base' : Replay F, base'.vectors.primals = base.vectors.primals ∧ r.Stands base' [] [] lent

theorem Replay.Stands.spares [Scalar F] {r base base' : Replay F} {lent : Nat}
    (h : r.Stands base' [] [] lent) (hp : base'.vectors.primals = base.vectors.primals) :
    r.Spares base lent := ⟨base', hp, h⟩

namespace Schema

def replaced : (s : Schema F) → s.Record → List (Identifier × F)
  | done, _ => []
  | scalar _ next, r => (next r.1).replaced r.2
  | input _ _ next, r => next.replaced r.2
  | output _ next, r => r.1.identifiers.items.zip r.1.oldValues.items ++ next.replaced r.2

variable [Scalar F]

/-- A callback body that may do to the derivatives what it likes, but runs to its end, leaves the
primals alone and hands on all buffers of its record. -/
def Harmless (s : Schema F) (body : s.Record → Program F s.Record) : Prop :=
  ∀ (a a' : s.Record) (r base : Replay F), s.Fits a →
    s.Revived base.traits base.vectors.primal a a' →
    r.Stands base [] [] (4 * (s.arrays a).length) →
    (body a').Ensures r fun b r' => r'.Spares base (4 * (s.arrays b).length)

end Schema

variable [Scalar F]

def Kernel.Rewinds (kernel : Kernel F) (s : Schema F) : Prop :=
  ∃ body, kernel.reverse = s.reverse body ∧ s.Harmless body

theorem Kernel.Rewinds.reverse_ensures [LawfulCells F] {kernel : Kernel F} {s : Schema F}
    (h : kernel.Rewinds s) {a : s.Record} {r : Replay F} (hfit : s.Fits a)
    (hidle : r.pool.lent = 0) (hf : r.fixed.At (s.fixedCells a))
    (hd : r.dynamic.At (s.dynamicCells r.traits a)) :
    kernel.reverse.Ensures r fun _ r' => r'.vectors.primals =
      (if r.traits.rollsBack then s.undone a r.vectors else r.vectors).primals ∧
        r'.pool.lent = 0 := by
  obtain ⟨body, hreverse, hbody⟩ := h
  rw [hreverse]
  refine (Schema.reverse_ensures_of
    (Q := fun base => base.vectors.primals =
      (if r.traits.rollsBack then s.undone a r.vectors else r.vectors).primals) hfit hidle hf hd
    ?_).mono ?_
  · intro a' r' base hbase hrevived hs
    refine (hbody a a' r' base hfit ?_ hs).mono fun b r'' ⟨base', hprimals, hs'⟩ => ?_
    · rw [hbase] at hrevived ⊢
      exact hrevived
    · exact ⟨base', hprimals.trans (by rw [hbase]; rfl), hs'⟩
  · rintro _ r' ⟨base', hprimals, hs⟩
    exact ⟨(congrArg Vectors.primals hs.vectors_eq).trans hprimals, hs.lent_eq⟩

section Bodies

variable {r base : Replay F} {fixed dynamic : List (Scalar.Cell F)} {lent : Nat}

theorem Program.report_ensures (note : Note F) (h : r.Stands base fixed dynamic lent) :
    (act (.report note)).Ensures r fun _ r' =>
      r'.Stands { base with notes := base.notes ++ [note] } fixed dynamic lent :=
  ensures_act <| .ok ⟨h.traits_eq, h.vectors_eq, congrArg (· ++ [note]) h.notes_eq, h.fixed_at,
    h.dynamic_at, h.lent_eq⟩

theorem Product.kernel_rewinds : (Product.kernel (F := F)).Rewinds Product.schema := by
  refine ⟨Product.reverse, rfl, ?_⟩
  rintro a ⟨activity, code, n, k, m, x, y, z, _⟩ r base - - hs
  rw [Product.reverse]
  refine (Product.take_ensures z hs).bind fun z₁ r₁ h₁ => ?_
  cases activity.get 0 <;> cases activity.get 1
  · exact Program.ensures_pure (h₁.2.spares rfl)
  · refine (Program.addGradients_ensures y.identifiers.items _ h₁.2).bind fun _ r₂ h₂ => ?_
    exact Program.ensures_pure (h₂.spares rfl)
  · refine (Program.addGradients_ensures x.identifiers.items _ h₁.2).bind fun _ r₂ h₂ => ?_
    exact Program.ensures_pure (h₂.spares rfl)
  · refine (Program.addGradients_ensures x.identifiers.items _ h₁.2).bind fun _ r₂ h₂ => ?_
    refine (Program.addGradients_ensures y.identifiers.items _ h₂).bind fun _ r₃ h₃ => ?_
    exact Program.ensures_pure (h₃.spares rfl)

theorem Scaling.kernel_rewinds : (Scaling.kernel (F := F)).Rewinds Scaling.schema := by
  refine ⟨Scaling.reverse, rfl, ?_⟩
  rintro a ⟨activity, n, factor, x, y, _⟩ r base - - hs
  rw [Scaling.reverse]
  refine (Program.report_ensures (Scaling.note "reverse" x y) hs).bind fun _ r₁ h₁ => ?_
  refine (Product.take_ensures y h₁).bind fun y₁ r₂ h₂ => ?_
  cases activity.get 0
  · exact Program.ensures_pure (h₂.2.spares rfl)
  · refine (Program.addGradients_ensures x.identifiers.items _ h₂.2).bind fun _ r₃ h₃ => ?_
    exact Program.ensures_pure (h₃.spares rfl)

theorem SquareSum.spread_ensures (activity : ActivityMask) (adjoints : List F) (i : Nat)
    (args : List (SquareSum.Header F × Staged F)) (h : r.Spares base lent) :
    (SquareSum.spread activity adjoints i args).Ensures r fun _ r' => r'.Spares base lent := by
  induction args generalizing i r with
  | nil => exact Program.ensures_pure h
  | cons arg args ih =>
    obtain ⟨base', hprimals, hs⟩ := h
    rw [SquareSum.spread]
    cases activity.get i with
    | false => exact ih (i + 1) (hs.spares hprimals)
    | true =>
      refine (Program.addGradients_ensures arg.2.identifiers.items _ hs).bind fun _ r₁ h₁ => ?_
      exact ih (i + 1) (h₁.spares hprimals)

theorem SquareSum.kernel_rewinds : (SquareSum.kernel (F := F)).Rewinds SquareSum.schema := by
  refine ⟨SquareSum.reverse, rfl, ?_⟩
  rintro a a' r base - hrevived hs
  rw [← hrevived.length_arrays] at hs
  rw [SquareSum.reverse]
  refine (Program.report_ensures ((SquareSum.Call.ofRecord a').note "reverse") hs).bind
    fun _ r₁ h₁ => ?_
  refine (Product.take_ensures (SquareSum.Call.ofRecord a').result h₁).bind fun y r₂ h₂ => ?_
  have hspares := h₂.2.spares rfl
  by_cases houtputs : 0 < (SquareSum.Call.ofRecord a').outputs
  · rw [if_pos houtputs]
    refine (SquareSum.spread_ensures _ y.gradients.items 0 _ hspares).bind fun _ r₃ h₃ => ?_
    exact Program.ensures_pure h₃
  · rw [if_neg houtputs]
    exact Program.ensures_pure hspares

end Bodies

theorem Builtin.kernel_rewinds (script : Script F) {b : Builtin} (hb : b ≠ .script) :
    ∃ s : Schema F, (b.kernel script).Rewinds s := by
  cases b with
  | scaling => exact ⟨_, Scaling.kernel_rewinds⟩
  | squareSum => exact ⟨_, SquareSum.kernel_rewinds⟩
  | script => exact absurd rfl hb
  | product => exact ⟨_, Product.kernel_rewinds⟩

end Autodiff
