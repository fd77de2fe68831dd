import Autodiff.Proofs.Runs
/-!
The derivative that a program has by definition: each variable carries a tangent of its own, with no
identifiers. The tangents of a sound ledger are the ones that its variables carry.
-/

namespace Autodiff

open History

structure Dual (F : Type) where
  value : F
  active : Bool
  tangent : F

variable {F : Type} [ExactScalar F] {n : Nat}

namespace Dual

def constant (value : F) : Dual F := ⟨value, false, 0⟩

end Dual

namespace Line

def derive (d : Fin n → Dual F) : Line F n → Fin n → Dual F
  | constant v value => Function.update d v (.constant value)
  | assign v value args =>
    if args.any fun a => (d a.1).active then
      Function.update d v ⟨value, true, (args.map fun a => a.2 * (d a.1).tangent).sum⟩
    else Function.update d v (.constant value)
  | output _ => d
  | release v => Function.update d v (.constant (d v).value)

end Line

def seeded (values : Fin n → F) (inputs : List (Fin n)) (seeds : Fin n → F) (v : Fin n) : Dual F :=
  if v ∈ inputs then ⟨values v, true, seeds v⟩ else .constant (values v)

def derivative (d : Fin n → Dual F) (lines : List (Line F n)) : Fin n → Dual F :=
  lines.foldl Line.derive d

namespace History

theorem tangentMap_append (es : History F) (e : Event F) (x : Identifier → F) :
    tangentMap (es ++ [e]) x = e.block.tangent (tangentMap es x) := by
  induction es generalizing x with
  | nil => rfl
  | cons e' es ih => exact ih _

end History

namespace Ledger

structure Matches (σ : Ledger F n) (x : Identifier → F) (d : Fin n → Dual F) : Prop where
  value_eq : ∀ v, (σ.vars v).value = (d v).value
  active_eq : ∀ v, (σ.vars v).isActive = (d v).active
  tangent_eq : ∀ v, tangentMap σ.history x (σ.ids v) = (d v).tangent

namespace Matches

variable {σ σ' : Ledger F n} {x : Identifier → F} {d : Fin n → Dual F}

theorem put_constant (h : σ.Matches x d) (hx : x passive = 0) (m : Issuer) (v : Fin n) (value : F) :
    (σ.put m v (.constant value)).Matches x (Function.update d v (.constant value)) := by
  have hids := ids_put σ m v (.constant value)
  constructor
  · intro w
    by_cases hw : w = v
    · simp [put, hw, Variable.constant, Dual.constant]
    · simpa [put, hw] using h.value_eq w
  · intro w
    by_cases hw : w = v
    · simp [put, hw, Variable.constant, Dual.constant, Variable.isActive]
    · simpa [put, hw] using h.active_eq w
  · intro w
    rw [hids]
    by_cases hw : w = v
    · rw [hw, Function.update_self, Function.update_self]
      exact (tangentMap_passive σ.history x).trans hx
    · rw [Function.update_of_ne hw, Function.update_of_ne hw]
      exact h.tangent_eq w

theorem put_log (h : σ.Matches x d) {y : Identifier × Issuer} {v : Fin n}
    (hy : σ.issuer.Grants σ.ids v y) (value : F) {e : Event F} {args : List (Identifier × F)}
    (hblock : e.block = [(y.1, args)]) :
    ((σ.put y.2 v ⟨value, y.1⟩).log e).Matches x
      (Function.update d v ⟨value, true, weigh args (tangentMap σ.history x)⟩) := by
  have hids := ids_put σ y.2 v ⟨value, y.1⟩
  have htangent : tangentMap (σ.history ++ [e]) x = overwrite (tangentMap σ.history x)
      [(y.1, weigh args (tangentMap σ.history x))] := by
    rw [tangentMap_append, hblock]
    rfl
  constructor
  · intro w
    by_cases hw : w = v
    · simp [log, put, hw]
    · simpa [log, put, hw] using h.value_eq w
  · intro w
    by_cases hw : w = v
    · simp [log, put, hw, Variable.isActive, hy.ne_passive]
    · simpa [log, put, hw] using h.active_eq w
  · intro w
    change tangentMap (σ.history ++ [e]) x ((σ.put y.2 v ⟨value, y.1⟩).ids w) = _
    rw [htangent, hids]
    by_cases hw : w = v
    · rw [hw, Function.update_self, Function.update_self]
      exact overwrite_of_mem _ (List.pairwise_singleton ..) (by simp) hy.ne_passive
    · have hne := hy.guards.distinct v w (Ne.symm hw) (by simpa using hy.ne_passive)
      rw [Function.update_self] at hne
      rw [Function.update_of_ne hw] at hne ⊢
      rw [Function.update_of_ne hw, overwrite_of_notMem _ (by simpa using hne.symm)]
      exact h.tangent_eq w

theorem weigh_active (h : σ.Matches x d) (hx : x passive = 0) (args : List (Fin n × F)) :
    weigh (active (σ.arguments args)) (tangentMap σ.history x) =
      (args.map fun a => a.2 * (d a.1).tangent).sum := by
  induction args with
  | nil => rfl
  | cons a args ih =>
    have hcons : σ.arguments (a :: args) = (σ.ids a.1, a.2) :: σ.arguments args := rfl
    have ha := h.tangent_eq a.1
    rw [List.map_cons, List.sum_cons, ← ih, hcons, active, List.filter_cons, ← ha]
    by_cases hid : σ.ids a.1 = passive
    · rw [hid, tangentMap_passive, hx, mul_zero, zero_add]
      rfl
    · rw [if_pos (by simpa using hid), weigh, List.map_cons, List.sum_cons]
      rfl

theorem all_passive (h : σ.Matches x d) (args : List (Fin n × F)) :
    ((σ.arguments args).all fun a => a.1 == passive) = !(args.any fun a => (d a.1).active) := by
  induction args with
  | nil => rfl
  | cons a args ih =>
    have ha := h.active_eq a.1
    have hid : (!(σ.vars a.1).isActive) = (σ.ids a.1 == passive) := by
      rw [Variable.isActive, bne, Bool.not_not]
      rfl
    rw [List.any_cons, Bool.not_or, ← ih, ← ha, hid]
    rfl

theorem release (h : σ.Matches x d) (hx : x passive = 0) {v : Fin n} {value : F}
    (hstep : σ.release v value = .ok σ') :
    σ'.Matches x (Function.update d v (.constant value)) := by
  obtain ⟨m, -, hstep⟩ := exists_of_bind_eq_ok hstep
  cases hstep
  exact h.put_constant hx m v value

theorem line (h : σ.Matches x d) (hσ : σ.Sound) (hx : x passive = 0) {l : Line F n}
    (hstep : σ.line l = .ok σ') : σ'.Matches x (l.derive d) := by
  cases l with
  | constant v value =>
    cases hstep
    exact h.put_constant hx _ v value
  | release v =>
    rw [Line.derive, ← h.value_eq v]
    exact h.release hx hstep
  | assign v value args =>
    rw [Ledger.line, h.all_passive] at hstep
    rw [Line.derive]
    cases hany : args.any fun a => (d a.1).active with
    | false =>
      rw [hany] at hstep
      exact h.release hx hstep
    | true =>
      rw [hany] at hstep
      cases hstep
      have hlog := h.put_log (hσ.guards.settle v) value
        (e := .elementary (σ.issuer.settle (σ.ids v)).1 (active (σ.arguments args)) value) rfl
      rw [h.weigh_active hx] at hlog
      exact hlog
  | output v =>
    rw [Ledger.line] at hstep
    by_cases hpassive : σ.ids v = passive
    · rw [if_pos hpassive] at hstep
      cases hstep
      exact h
    · rw [if_neg hpassive] at hstep
      obtain ⟨m, hm : σ.issuer.issue.2.retire (σ.ids v) = .ok m, hstep⟩ :=
        exists_of_bind_eq_ok hstep
      cases hstep
      obtain ⟨m', hm', hy⟩ := hσ.guards.replace v
      obtain rfl : m = m' := Except.ok.inj (hm.symm.trans hm')
      have hlog := h.put_log hy (σ.vars v).value
        (e := .elementary σ.issuer.issue.1 [(σ.ids v, 1)] (σ.vars v).value) rfl
      have hdual : Function.update d v ⟨(σ.vars v).value, true,
          weigh [(σ.ids v, 1)] (tangentMap σ.history x)⟩ = d := by
        have hactive : (d v).active = true := by
          rw [← h.active_eq v]
          exact bne_iff_ne.mpr hpassive
        have hweigh : weigh [(σ.ids v, 1)] (tangentMap σ.history x) = (d v).tangent := by
          simp [weigh, h.tangent_eq v]
        rw [hweigh, h.value_eq v, ← hactive]
        exact Function.update_eq_self v d
      rw [hdual] at hlog
      exact hlog

end Matches

end Ledger

end Autodiff
