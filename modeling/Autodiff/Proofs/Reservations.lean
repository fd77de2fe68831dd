import Autodiff.Proofs.Transfers

namespace Autodiff

variable {F : Type} [Scalar F] {n : Nat}

namespace Issuer

variable {m m' : Issuer} {id o : Identifier}

structure Reserves (m : Issuer) (id : Identifier) : Prop where
  ne_passive : id ≠ passive
  notMem_unused : id ∉ m.unused
  le : id ≤ m.largest
  unused_linear : m.policy = .linear → m.unused = []

structure Avoids (m : Issuer) (id : Identifier) (x : Identifier × Issuer) : Prop where
  ne : x.1 ≠ id
  reserves : x.2.Reserves id
  policy_eq : x.2.policy = m.policy
  largest_le : m.largest ≤ x.2.largest
  fresh : m.policy = .linear → m.largest < x.1

namespace Reserves

theorem issue (h : m.Reserves id) : m.Avoids id m.issue := by
  unfold Issuer.issue
  cases hu : m.unused with
  | nil =>
    have hlt := Nat.lt_succ_of_le h.le
    exact ⟨hlt.ne', ⟨h.ne_passive, List.not_mem_nil, hlt.le, fun _ => rfl⟩, rfl,
      Nat.le_succ _, fun _ => Nat.lt_succ_self _⟩
  | cons first rest =>
    have hnot := h.notMem_unused
    rw [hu, List.mem_cons, not_or] at hnot
    have hreuse (hp : m.policy = .linear) : False := by
      have hnil := h.unused_linear hp
      rw [hu] at hnil
      cases hnil
    exact ⟨Ne.symm hnot.1, ⟨h.ne_passive, hnot.2, h.le, fun hp => (hreuse hp).elim⟩, rfl,
      Nat.le_refl _, fun hp => (hreuse hp).elim⟩

theorem retire (h : m.Reserves id) (ho : o ≠ id) (hm : m.retire o = .ok m') :
    m'.Reserves id ∧ m'.largest = m.largest := by
  cases hp : m.policy with
  | linear =>
    rw [Issuer.retire, hp] at hm
    cases hm
    exact ⟨h, rfl⟩
  | reuse =>
    rw [Issuer.retire, hp] at hm
    dsimp only at hm
    split at hm
    case isTrue =>
      cases hm
      exact ⟨h, rfl⟩
    case isFalse =>
      split at hm
      case isTrue =>
        cases hm
        refine ⟨⟨h.ne_passive, ?_, h.le, fun hlinear => by cases hlinear⟩, rfl⟩
        rw [List.mem_cons, not_or]
        exact ⟨ho.symm, h.notMem_unused⟩
      case isFalse => cases hm

theorem exchange (h : m.Reserves id) (ho : o ≠ id) {x : Identifier × Issuer}
    (hx : m.exchange o = .ok x) : m.Avoids id x := by
  obtain ⟨m₁, h₁, hx⟩ := exists_of_bind_eq_ok hx
  cases hx
  obtain ⟨hreserves, hlargest⟩ := h.retire ho h₁
  have hissue := hreserves.issue
  have hpolicy := policy_retire h₁
  refine ⟨hissue.ne, hissue.reserves, hissue.policy_eq.trans hpolicy, ?_, fun hp => ?_⟩
  · rw [← hlargest]
    exact hissue.largest_le
  · rw [← hlargest]
    exact hissue.fresh (hpolicy.trans hp)

theorem settle (h : m.Reserves id) (ho : o ≠ id) : m.Avoids id (m.settle o) := by
  unfold Issuer.settle
  split
  case h_1 => exact h.issue
  case h_2 hp =>
    split
    case isTrue => exact h.issue
    case isFalse => exact ⟨ho, h, rfl, Nat.le_refl _, fun hl => by rw [hp] at hl; cases hl⟩

end Reserves

end Issuer

open Issuer

namespace Tape

variable {t t' : Tape F} {id : Identifier} {x y : Variable F} {xs ys : List (Variable F)}

structure Withholds (id : Identifier) (ys : List (Variable F)) (t : Tape F) : Prop where
  ne : ∀ y ∈ ys, y.identifier ≠ id
  reserves : t.issuer.Reserves id

theorem output_cases (hne : x.identifier ≠ passive) (hy : t.output x = .ok (y, t')) :
    ∃ m, t.issuer.issue.2.retire x.identifier = .ok m ∧ y = ⟨x.value, t.issuer.issue.1⟩ ∧
      t' = { t with issuer := m, pending := t.pending ++ [(x.identifier, 1)] }.append
        t.issuer.issue.1 .elementary x.value := by
  cases hm : t.issuer.issue.2.retire x.identifier with
  | ok m =>
    have hactive : Ledger.active [(x.identifier, (1 : F))] = [(x.identifier, 1)] := by
      simp [Ledger.active, hne]
    rw [output_eq hne hm, addArguments_eq, hactive] at hy
    cases hy
    exact ⟨m, rfl, rfl, rfl⟩
  | error fault =>
    have hissuer : (t.addArgument x.identifier 1).issuer = t.issuer := by
      rw [addArgument, if_neg hne]
    rw [output, if_neg hne] at hy
    obtain ⟨t₁, h₁, -⟩ := exists_of_bind_eq_ok hy
    obtain ⟨m, hretire, -⟩ := exists_of_bind_eq_ok h₁
    change ((t.addArgument x.identifier 1).issuer.settle passive).2.retire x.identifier = _
      at hretire
    rw [settle_passive, hissuer, hm] at hretire
    cases hretire

theorem withholds_singleton (hy : y.identifier ≠ id) (h : t.issuer.Reserves id) :
    Withholds id [y] t := by
  refine ⟨fun z hz => ?_, h⟩
  rw [List.mem_singleton.mp hz]
  exact hy

section Single

variable (h : t.issuer.Reserves id) (hx : x.identifier ≠ id)
include h hx

theorem release_withholds (hy : t.release x = .ok (y, t')) : Withholds id [y] t' := by
  obtain ⟨t₁, h₁, hy⟩ := exists_of_bind_eq_ok hy
  obtain ⟨m, hm, h₁⟩ := exists_of_bind_eq_ok h₁
  cases h₁
  cases hy
  exact withholds_singleton h.ne_passive.symm (h.retire hx hm).1

theorem freshOutput_withholds {old : F} (hy : t.freshOutput x = .ok (old, y, t')) :
    Withholds id [y] t' := by
  obtain ⟨z, hz, hy⟩ := exists_of_bind_eq_ok hy
  cases hy
  have hnew := h.exchange hx hz
  exact withholds_singleton hnew.ne hnew.reserves

theorem input_withholds (hy : t.input x = .ok (y, t')) : Withholds id [y] t' := by
  obtain ⟨z, hz, hy⟩ := exists_of_bind_eq_ok hy
  have hnew := h.exchange hx hz
  cases hy
  apply withholds_singleton hnew.ne
  dsimp only
  split <;> exact hnew.reserves

theorem output_withholds (hy : t.output x = .ok (y, t')) : Withholds id [y] t' := by
  by_cases hpassive : x.identifier = passive
  · rw [output, if_pos hpassive] at hy
    cases hy
    exact withholds_singleton hx h
  · obtain ⟨m, hm, rfl, rfl⟩ := output_cases hpassive hy
    have hnew := h.issue
    exact withholds_singleton hnew.ne (hnew.reserves.retire hx hm).1

theorem assign_withholds {value : F} {args : List (Identifier × F)}
    (hy : t.assign x value args = .ok (y, t')) : Withholds id [y] t' := by
  cases hpassive : args.all fun a => a.1 == passive with
  | true =>
    rw [assign, if_pos hpassive] at hy
    exact release_withholds (x := ⟨value, x.identifier⟩) h hx hy
  | false =>
    rw [assign_eq _ _ hpassive, addArguments_eq] at hy
    cases hy
    have hnew := h.settle hx
    exact withholds_singleton hnew.ne hnew.reserves

theorem placeOutput_withholds {active : Bool} {old : F}
    (hy : t.placeOutput x active = .ok (old, y, t')) : Withholds id [y] t' := by
  cases active with
  | true => exact freshOutput_withholds h hx hy
  | false =>
    obtain ⟨⟨z, t₁⟩, hz, hy⟩ := exists_of_bind_eq_ok hy
    cases hy
    exact release_withholds h hx hz

end Single

theorem placeOutputs_withholds (h : Withholds id xs t) {a a' : Staged F}
    {places : List (Nat × Bool)} (hys : t.placeOutputs xs a places = .ok (ys, a', t')) :
    Withholds id ys t' := by
  induction places generalizing t xs a with
  | nil =>
    cases hys
    exact h
  | cons place places ih =>
    obtain ⟨⟨old, y, t₁⟩, hy, hys⟩ := exists_of_bind_eq_ok hys
    have hget : (xs.getD place.1 (.constant 0)).identifier ≠ id := by
      by_cases hlt : place.1 < xs.length
      · rw [List.getD_eq_getElem _ _ hlt]
        exact h.ne _ (List.getElem_mem hlt)
      · rw [List.getD_eq_default _ _ (not_lt.mp hlt)]
        exact h.reserves.ne_passive.symm
    have hplaced := placeOutput_withholds h.reserves hget hy
    refine ih ⟨fun z hz => ?_, hplaced.reserves⟩ hys
    rcases List.mem_or_eq_of_mem_set hz with hz | rfl
    · exact h.ne z hz
    · exact hplaced.ne _ (List.mem_singleton_self _)

theorem releaseAll_withholds (h : Withholds id xs t) (hys : t.releaseAll xs = .ok (ys, t')) :
    Withholds id ys t' := by
  induction xs generalizing t ys with
  | nil =>
    cases hys
    exact h
  | cons x xs ih =>
    obtain ⟨⟨y, t₁⟩, hy, hys⟩ := exists_of_bind_eq_ok hys
    obtain ⟨⟨zs, t₂⟩, hzs, hys⟩ := exists_of_bind_eq_ok hys
    cases hys
    have hfirst := release_withholds h.reserves (h.ne x List.mem_cons_self) hy
    have hrest := ih ⟨fun z hz => h.ne z (List.mem_cons_of_mem x hz), hfirst.reserves⟩ hzs
    refine ⟨fun z hz => ?_, hrest.reserves⟩
    rcases List.mem_cons.mp hz with rfl | hz
    · exact hfirst.ne _ (List.mem_singleton_self _)
    · exact hrest.ne z hz

end Tape

namespace Product

omit [Scalar F] in
theorem exists_of_mem_withValues {xs : List (Variable F)} {values : List F} {y : Variable F}
    (h : y ∈ withValues xs values) : ∃ x ∈ xs, y.identifier = x.identifier := by
  obtain ⟨k, hk, rfl⟩ := List.mem_iff_getElem.mp h
  rw [withValues, List.length_zipWith] at hk
  refine ⟨xs[k], List.getElem_mem _, ?_⟩
  simp [withValues]

theorem multiply_withholds {t t' : Tape F} {kernels : Kernels F} {token : Token}
    {s : MatrixOrder} {rows inner cols : Nat} {a b xs ys : List (Variable F)} {id : Identifier}
    (h : Tape.Withholds id xs t)
    (hys : multiply t kernels token s rows inner cols a b xs = .ok (ys, t')) :
    Tape.Withholds id ys t' := by
  have hvalued (values : List F) : Tape.Withholds id (withValues xs values) t := by
    refine ⟨fun y hy => ?_, h.reserves⟩
    obtain ⟨x, hx, heq⟩ := exists_of_mem_withValues hy
    rw [heq]
    exact h.ne x hx
  obtain ⟨-, -, hys⟩ := exists_of_bind_eq_ok hys
  obtain ⟨-, -, hys⟩ := exists_of_bind_eq_ok hys
  obtain ⟨-, -, hys⟩ := exists_of_bind_eq_ok hys
  obtain ⟨activity, -, hys⟩ := exists_of_bind_eq_ok hys
  split at hys
  case isTrue => exact Tape.releaseAll_withholds (hvalued _) hys
  case isFalse =>
    obtain ⟨⟨zs, sy, t₁⟩, h₁, hys⟩ := exists_of_bind_eq_ok hys
    obtain ⟨t₂, h₂, hys⟩ := exists_of_bind_eq_ok hys
    obtain ⟨t₃, h₃, hys⟩ := exists_of_bind_eq_ok hys
    cases hys
    have hplaced : Tape.Withholds id ys t₁ := by
      refine Tape.placeOutputs_withholds ?_ h₁
      exact ⟨(hvalued _).ne, h.reserves⟩
    have hwritten := (Tape.writeRecord_accounts ..).of_eq_ok h₂
    have hreclaimed := (Tape.reclaim_accounts ..).of_eq_ok h₃
    exact ⟨hplaced.ne, hreclaimed ▸ hwritten ▸ hplaced.reserves⟩

end Product

namespace Recording

variable {r r' : Recording F} {u v w : Nat} {x y : Variable F}

theorem get_set_of_ne (h : w ≠ v) : (r.set v x).get w = r.get w := by
  simp [get, set, List.getD_eq_getElem?_getD, List.getElem?_set_ne (Ne.symm h)]

theorem get_set_cases (r : Recording F) (v w : Nat) (x : Variable F) :
    (r.set v x).get w = x ∨ (r.set v x).get w = r.get w := by
  by_cases h : w = v
  · subst h
    by_cases hlt : w < r.vars.length
    · left
      simp [get, set, hlt]
    · right
      rw [set, List.set_eq_of_length_le (not_lt.mp hlt)]
  · exact .inr (get_set_of_ne h)

structure Reserves (r : Recording F) (v : Nat) (x : Variable F) : Prop where
  get_eq : r.get v = x
  unshared : ∀ w, w ≠ v → (r.get w).identifier ≠ x.identifier
  issuer : r.tape.issuer.Reserves x.identifier

namespace Reserves

theorem withTape (h : r.Reserves v x) {t : Tape F} (ht : t.issuer.Reserves x.identifier) :
    (r.withTape t).Reserves v x := ⟨h.get_eq, h.unshared, ht⟩

theorem set (h : r.Reserves v x) (hw : w ≠ v) (hy : y.identifier ≠ x.identifier) :
    (r.set w y).Reserves v x := by
  refine ⟨(get_set_of_ne (Ne.symm hw)).trans h.get_eq, fun u hu => ?_, h.issuer⟩
  rcases get_set_cases r w u y with hget | hget
  · rw [hget]
    exact hy
  · rw [hget]
    exact h.unshared u hu

theorem setAll (h : r.Reserves v x) {ws : List Nat} (hws : v ∉ ws) {ys : List (Variable F)}
    (hys : ∀ y ∈ ys, y.identifier ≠ x.identifier) : (r.setAll ws ys).Reserves v x := by
  induction ws generalizing r ys with
  | nil => exact h
  | cons w ws ih =>
    cases ys with
    | nil => exact h
    | cons y ys =>
      rw [List.mem_cons, not_or] at hws
      have hset := h.set (Ne.symm hws.1) (hys y List.mem_cons_self)
      exact ih hset hws.2 fun z hz => hys z (List.mem_cons_of_mem y hz)

theorem setResult (h : r.Reserves v x) (hw : w ≠ v) {t : Tape F}
    (hy : Tape.Withholds x.identifier [y] t) : (r.setResult w (y, t)).2.Reserves v x :=
  (h.withTape hy.reserves).set hw (hy.ne y (List.mem_singleton_self y))

end Reserves

end Recording

def Transfer.Spares (v : Fin n) : Transfer F n → Prop
  | copy u w => u ≠ v ∧ w ≠ v
  | x => v ∉ x.targets

theorem Recording.Reserves.transfer {r r' : Recording F} {v : Fin n} {y : Variable F}
    (h : r.Reserves v y) {c : Catalogue F} {x : Transfer F n} (hx : x.Spares v)
    (hr : x.apply c r = .ok r') : r'.Reserves v y := by
  have hne {w : Fin n} (hw : v ∉ [w]) : w.val ≠ v.val := fun heq =>
    hw (List.mem_singleton.mpr (Fin.ext heq).symm)
  cases x with
  | create w =>
    cases hr
    have hnew := h.issuer.issue
    exact (h.withTape hnew.reserves).set (hne hx) hnew.ne
  | copy u w =>
    cases hr
    exact h.set (mt Fin.ext hx.2) (h.unshared u (mt Fin.ext hx.1))
  | externalOutput w =>
    obtain ⟨⟨note, r₁⟩, h₁, hr⟩ := exists_of_bind_eq_ok hr
    obtain ⟨⟨old, z, t⟩, hz, h₁⟩ := exists_of_bind_eq_ok h₁
    cases h₁
    cases hr
    have hw := hne hx
    exact h.setResult hw (Tape.freshOutput_withholds h.issuer (h.unshared w hw) hz)
  | instruct i =>
    obtain ⟨⟨note, r₁⟩, h₁, hr⟩ := exists_of_bind_eq_ok hr
    cases hr
    cases i with
    | line l =>
      have hw := hne hx
      cases l with
      | constant w value =>
        cases h₁
        exact h.set hw h.issuer.ne_passive.symm
      | assign w value args =>
        obtain ⟨⟨z, t⟩, hz, h₁⟩ := exists_of_bind_eq_ok h₁
        cases h₁
        exact h.setResult hw (Tape.assign_withholds h.issuer (h.unshared w hw) hz)
      | output w =>
        obtain ⟨⟨z, t⟩, hz, h₁⟩ := exists_of_bind_eq_ok h₁
        cases h₁
        exact h.setResult hw (Tape.output_withholds h.issuer (h.unshared w hw) hz)
      | release w =>
        obtain ⟨⟨z, t⟩, hz, h₁⟩ := exists_of_bind_eq_ok h₁
        cases h₁
        exact h.setResult hw (Tape.release_withholds h.issuer (h.unshared w hw) hz)
    | input w =>
      have hw := hne hx
      obtain ⟨⟨z, t⟩, hz, h₁⟩ := exists_of_bind_eq_ok h₁
      cases h₁
      exact h.setResult hw (Tape.input_withholds h.issuer (h.unshared w hw) hz)
    | multiply p =>
      obtain ⟨⟨ys, t⟩, hys, h₁⟩ := exists_of_bind_eq_ok h₁
      cases h₁
      have hresults : v.val ∉ p.results.map Fin.val := by
        rw [List.mem_map_of_injective Fin.val_injective]
        exact hx
      have hold : Tape.Withholds y.identifier (r.getAll (p.results.map Fin.val)) r.tape := by
        refine ⟨fun z hz => ?_, h.issuer⟩
        obtain ⟨w, hw, rfl⟩ := List.mem_map.mp hz
        exact h.unshared w (ne_of_mem_of_not_mem hw hresults)
      have hnew := Product.multiply_withholds hold hys
      exact (h.withTape hnew.reserves).setAll hresults hnew.ne

end Autodiff
