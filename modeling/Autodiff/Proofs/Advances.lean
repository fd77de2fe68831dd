import Autodiff.Proofs.Runs

namespace Autodiff

open History

variable {F : Type} {n : Nat}

def Line.targets : Line F n → List (Fin n)
  | constant v _ => [v]
  | assign v _ _ => [v]
  | output v => [v]
  | release v => [v]

def Instruction.targets : Instruction F n → List (Fin n)
  | line l => l.targets
  | input v => [v]
  | multiply p => p.results

namespace Ledger

variable [Scalar F] {σ σ' σ'' : Ledger F n}

structure Advances (σ : Ledger F n) (vs : List (Fin n)) (σ' : Ledger F n) (es : History F) :
    Prop where
  history_eq : σ'.history = σ.history ++ es
  largest_le : σ.issuer.largest ≤ σ'.issuer.largest
  kept : ∀ v, v ∉ vs → σ'.vars v = σ.vars v
  held : ∀ id ∈ (writes es).map Prod.fst, id ≠ passive → ∃ v ∈ vs, σ'.ids v = id

namespace Advances

variable {v : Fin n} {vs : List (Fin n)}

theorem put {m : Issuer} (v : Fin n) (y : Variable F) (h : σ.issuer.largest ≤ m.largest) :
    σ.Advances [v] (σ.put m v y) [] := by
  refine ⟨(List.append_nil _).symm, h, ?_, nofun⟩
  intro w hw
  simp only [List.mem_singleton] at hw
  exact Function.update_of_ne hw ..

theorem put_log {m : Issuer} (v : Fin n) (y : Variable F) {e : Event F}
    (h : σ.issuer.largest ≤ m.largest) (hw : e.writes.map Prod.fst = [y.identifier]) :
    σ.Advances [v] ((σ.put m v y).log e) [e] := by
  refine ⟨rfl, h, (put v y h).kept, ?_⟩
  intro id hid _
  rw [writes, List.flatMap_singleton, hw, List.mem_singleton] at hid
  refine ⟨v, List.mem_singleton_self v, ?_⟩
  change (σ.put m v y).ids v = id
  rw [ids_put, Function.update_self, hid]

end Advances

theorem Sound.release_advances (h : σ.Sound) {v : Fin n} {value : F}
    (hstep : σ.release v value = .ok σ') : σ.Advances [v] σ' [] := by
  obtain ⟨m, hm, hstep⟩ := exists_of_bind_eq_ok hstep
  cases hstep
  obtain ⟨m', hm', hguards⟩ := h.guards.retire v
  obtain rfl : m = m' := Except.ok.inj (hm.symm.trans hm')
  exact .put v _ hguards.2.2.ge

theorem Sound.line_advances (h : σ.Sound) {l : Line F n} (hstep : σ.line l = .ok σ') :
    ∃ es, σ.Advances l.targets σ' es := by
  cases l with
  | constant v value =>
    cases hstep
    exact ⟨[], .put v _ (Nat.le_refl _)⟩
  | release v => exact ⟨[], h.release_advances hstep⟩
  | assign v value args =>
    rw [Ledger.line] at hstep
    split at hstep
    · exact ⟨[], h.release_advances hstep⟩
    · cases hstep
      exact ⟨_, .put_log v _ (h.guards.settle v).largest_le rfl⟩
  | output v =>
    rw [Ledger.line] at hstep
    split at hstep
    · cases hstep
      exact ⟨[], (List.append_nil _).symm, Nat.le_refl _, fun _ _ => rfl,
        fun id hid => absurd hid List.not_mem_nil⟩
    · obtain ⟨m, hm : σ.issuer.issue.2.retire (σ.ids v) = .ok m, hstep⟩ :=
        exists_of_bind_eq_ok hstep
      cases hstep
      obtain ⟨m', hm', hx⟩ := h.guards.replace v
      obtain rfl : m = m' := Except.ok.inj (hm.symm.trans hm')
      exact ⟨_, .put_log v _ hx.largest_le rfl⟩

theorem Sound.multiply_advances (h : σ.Sound) {p : ProductRef n} (hstep : σ.multiply p = .ok σ') :
    ∃ es, σ.Advances p.results σ' es := by
  obtain ⟨σ₂, hok, σ₁, -, hplaced, rfl⟩ := multiply_yields h.guards p
  obtain rfl : σ' = _ := Except.ok.inj (hstep.symm.trans hok)
  obtain ⟨-, hlargest, hhistory⟩ := hplaced.issuer_history
  have hkept : ∀ v, v ∉ p.results → (σ.logCall p σ₁).vars v = σ.vars v := by
    intro v hv
    rw [vars_logCall]
    exact hplaced.vars_eq hv
  rw [← issuer_logCall σ σ₁ p] at hlargest
  cases hactive : σ.isActive p with
  | false =>
    refine ⟨[], ?_, hlargest, hkept, fun id hid => absurd hid List.not_mem_nil⟩
    rw [history_logCall, hactive, hhistory]
    rfl
  | true =>
    refine ⟨[.product (σ.call p (p.results.map σ₁.ids))], ?_, hlargest, hkept, ?_⟩
    · rw [history_logCall, hactive, hhistory]
      rfl
    · intro id hid _
      rw [writes, List.flatMap_singleton, hplaced.map_fst_writes] at hid
      obtain ⟨v, hv, rfl⟩ := List.mem_map.mp hid
      exact ⟨v, hv, congrFun (ids_logCall σ σ₁ p) v⟩

theorem Sound.step_advances (h : σ.Sound) {i : Instruction F n} (hstep : σ.step i = .ok σ') :
    ∃ es, σ.Advances i.targets σ' es := by
  cases i with
  | line l => exact h.line_advances hstep
  | multiply p => exact h.multiply_advances hstep
  | input v =>
    obtain ⟨τ, hτ, hstep⟩ := exists_of_bind_eq_ok hstep
    obtain ⟨x, hx, hτ⟩ := exists_of_bind_eq_ok hτ
    cases hτ
    cases hstep
    obtain ⟨y, hy, hgrants⟩ := h.guards.exchange v
    obtain rfl : x = y := Except.ok.inj (hx.symm.trans hy)
    refine ⟨_, .put_log v _ hgrants.largest_le ?_⟩
    rw [ids_put, Function.update_self]
    rfl

theorem Sound.run_history (h : σ.Sound) {program : List (Instruction F n)}
    (hrun : σ.run program = .ok σ') :
    σ.history <+: σ'.history ∧ σ'.issuer.policy = σ.issuer.policy ∧
      σ.issuer.largest ≤ σ'.issuer.largest := by
  induction program generalizing σ with
  | nil =>
    cases hrun
    exact ⟨List.prefix_rfl, rfl, Nat.le_refl _⟩
  | cons i program ih =>
    rw [run, List.foldlM_cons] at hrun
    obtain ⟨σ₁, hstep, hrun⟩ := exists_of_bind_eq_ok hrun
    obtain ⟨σ₂, hok, hσ₂, hpolicy⟩ := h.step i
    obtain rfl : σ₁ = σ₂ := Except.ok.inj (hstep.symm.trans hok)
    obtain ⟨es, hes⟩ := h.step_advances hstep
    obtain ⟨hinitial, hpolicy', hlargest⟩ := ih hσ₂ hrun
    rw [hes.history_eq] at hinitial
    exact ⟨(List.prefix_append ..).trans hinitial, hpolicy'.trans hpolicy,
      hes.largest_le.trans hlargest⟩

theorem Sound.run_writes_le (h : σ.Sound) (hle : ∀ w ∈ writes σ.history, w.1 ≤ σ.issuer.largest)
    {program : List (Instruction F n)} (hrun : σ.run program = .ok σ') :
    ∀ w ∈ writes σ'.history, w.1 ≤ σ'.issuer.largest := by
  induction program generalizing σ with
  | nil =>
    cases hrun
    exact hle
  | cons i program ih =>
    rw [run, List.foldlM_cons] at hrun
    obtain ⟨σ₁, hstep, hrun⟩ := exists_of_bind_eq_ok hrun
    obtain ⟨σ₂, hok, hσ₂, -⟩ := h.step i
    obtain rfl : σ₁ = σ₂ := Except.ok.inj (hstep.symm.trans hok)
    obtain ⟨es, hes⟩ := h.step_advances hstep
    refine ih hσ₂ ?_ hrun
    intro w hw
    rw [hes.history_eq, writes, List.flatMap_append] at hw
    rcases List.mem_append.mp hw with hw | hw
    · exact (hle w hw).trans hes.largest_le
    · by_cases hpassive : w.1 = passive
      · rw [hpassive]
        exact Nat.zero_le _
      · obtain ⟨v, -, hv⟩ := hes.held w.1 (List.mem_map_of_mem hw) hpassive
        rw [← hv]
        exact hσ₂.guards.held_le v

theorem Sound.run_untouched (h : σ.Sound) {v : Fin n} (hv : σ.ids v ≠ passive)
    {program : List (Instruction F n)} (htargets : ∀ i ∈ program, v ∉ i.targets)
    (hrun : σ.run program = .ok σ') :
    σ'.vars v = σ.vars v ∧
      ∃ es, σ'.history = σ.history ++ es ∧ σ.ids v ∉ (writes es).map Prod.fst := by
  induction program generalizing σ with
  | nil =>
    cases hrun
    exact ⟨rfl, [], (List.append_nil _).symm, List.not_mem_nil⟩
  | cons i program ih =>
    rw [run, List.foldlM_cons] at hrun
    obtain ⟨σ₁, hstep, hrun⟩ := exists_of_bind_eq_ok hrun
    obtain ⟨σ₂, hok, hσ₂, -⟩ := h.step i
    obtain rfl : σ₁ = σ₂ := Except.ok.inj (hstep.symm.trans hok)
    obtain ⟨es, hes⟩ := h.step_advances hstep
    have hkept := hes.kept v (htargets i (by simp))
    have hids : σ₁.ids v = σ.ids v := congrArg Variable.identifier hkept
    obtain ⟨hvar, es', hhistory, hnot⟩ := ih hσ₂ (by rwa [hids])
      (fun j hj => htargets j (List.mem_cons_of_mem _ hj)) hrun
    refine ⟨hvar.trans hkept, es ++ es', ?_, ?_⟩
    · rw [hhistory, hes.history_eq, List.append_assoc]
    · rw [writes, List.flatMap_append, List.map_append, List.mem_append, not_or]
      refine ⟨?_, hids ▸ hnot⟩
      intro hmem
      -- The step would have written under an identifier that two variables hold.
      obtain ⟨w, hw, heq⟩ := hes.held _ hmem hv
      have hne : v ≠ w := by
        rintro rfl
        exact htargets i (by simp) hw
      exact hσ₂.guards.distinct v w hne (by rwa [hids]) (by rw [hids, heq])

end Ledger

end Autodiff
