import Autodiff.Proofs.Advances
import Autodiff.Proofs.Agreement
import Autodiff.Proofs.Contents
import Autodiff.Proofs.Decomposition

namespace Autodiff

open History

variable {F : Type} [Scalar F]

def Collects (id : Identifier) (f : Slots F → Slots F) : Prop :=
  ∀ u : Slots F, u.slot passive = 0 → ∃ (terms : List F) (w : Identifier → F), w passive = 0 ∧
    ∀ v : Slots F, (∀ j, j ≠ id → v.slot j = u.slot j) →
      (f v).slot id = terms.foldl (· + ·) (v.slot id) ∧ ∀ j, j ≠ id → (f v).slot j = w j

namespace Collects

variable {id : Identifier} {f g : Slots F → Slots F}

theorem refl (id : Identifier) : Collects id fun v : Slots F => v :=
  fun u hu => ⟨[], u.slot, hu, fun _ hv => ⟨rfl, hv⟩⟩

theorem trans (hid : id ≠ passive) (hf : Collects id f) (hg : Collects id g) :
    Collects id fun v => g (f v) := by
  intro u hu
  obtain ⟨terms, w, hw, hterms⟩ := hf u hu
  have hslot := (hterms u fun _ _ => rfl).2
  obtain ⟨terms', w', hw', hterms'⟩ := hg (f u) ((hslot passive hid.symm).trans hw)
  refine ⟨terms ++ terms', w', hw', ?_⟩
  intro v hv
  obtain ⟨hid, hother⟩ := hterms v hv
  have hsame := hterms' (f v) fun j hj => (hother j hj).trans (hslot j hj).symm
  rw [hid, ← List.foldl_append] at hsame
  exact hsame

theorem of_eq (h : ∀ u : Slots F, u.slot passive = 0 → ∃ g, Collects id g ∧
    ∀ v : Slots F, (∀ j, j ≠ id → v.slot j = u.slot j) → f v = g v) : Collects id f := by
  intro u hu
  obtain ⟨g, hg, hfg⟩ := h u hu
  obtain ⟨terms, w, hw, hterms⟩ := hg u hu
  refine ⟨terms, w, hw, ?_⟩
  intro v hv
  rw [hfg v hv]
  exact hterms v hv

theorem scatter {ws : List (Identifier × F)} (h : id ∉ ws.map Prod.fst) :
    Collects id fun v : Slots F => v.scatter ws := by
  intro u hu
  refine ⟨[], overwrite u.slot ws, (overwrite_passive ..).trans hu, ?_⟩
  intro v hv
  rw [Slots.slot_scatter]
  exact ⟨overwrite_of_notMem _ h, fun j hj => overwrite_congr (hv j hj)⟩

theorem modify (hid : id ≠ passive) {i : Identifier} (hi : i ≠ passive) (x : F) :
    Collects id fun v : Slots F => v.modify i (· + x) := by
  have hslot (v : Slots F) (j : Identifier) :
      (v.modify i (· + x)).slot j = if i = j then v.slot i + x else v.slot j := Slots.slot_set ..
  intro u hu
  by_cases hii : i = id
  · subst hii
    refine ⟨[x], u.slot, hu, ?_⟩
    intro v hv
    constructor
    · exact (hslot v i).trans (if_pos rfl)
    · intro j hj
      exact (hslot v j).trans ((if_neg hj.symm).trans (hv j hj))
  · refine ⟨[], (u.modify i (· + x)).slot, (hslot u passive).trans ((if_neg hi).trans hu), ?_⟩
    intro v hv
    constructor
    · exact (hslot v id).trans (if_neg hii)
    · intro j hj
      change (v.modify i (· + x)).slot j = _
      rw [hslot v j, hslot u j, hv i hii, hv j hj]

theorem accumulate (hid : id ≠ passive) (ws : List (Identifier × F)) :
    Collects id fun v : Slots F => v.accumulate ws := by
  induction ws with
  | nil => exact refl id
  | cons w ws ih =>
    by_cases hw : w.1 = passive
    · have hskip (v : Slots F) : v.accumulate (w :: ws) = v.accumulate ws := by
        simp [Slots.accumulate, hw]
      simpa only [hskip] using ih
    · have hmodify (v : Slots F) :
          v.accumulate (w :: ws) = (v.modify w.1 (· + w.2)).accumulate ws := by
        simp [Slots.accumulate, hw]
      simpa only [hmodify] using (modify hid hw w.2).trans hid ih

theorem distribute (hid : id ≠ passive) {args : List (Identifier × F)}
    (hargs : ∀ a ∈ args, a.1 ≠ passive) (y : F) :
    Collects id fun v : Slots F => args.foldl (fun v a => v.modify a.1 (· + a.2 * y)) v := by
  induction args with
  | nil => exact refl id
  | cons a args ih =>
    exact (modify hid (hargs a (by simp)) (a.2 * y)).trans hid
      (ih fun b hb => hargs b (List.mem_cons_of_mem _ hb))

end Collects

namespace Event

variable {id : Identifier} {e : Event F}

theorem slot_tangent_of_notMem (he : e.Regular) (hid : id ∉ e.outputs) (v : Slots F) :
    (e.tangent v).slot id = v.slot id := by
  cases e with
  | elementary i args x =>
    have hne : i ≠ id := by simpa [outputs, eq_comm] using hid
    rw [tangent, Slots.slot_set, if_neg hne]
  | input => rfl
  | product c =>
    rw [tangent, Product.Call.tangent, Slots.slot_scatter]
    apply overwrite_of_notMem
    intro hmem
    obtain ⟨w, hw, rfl⟩ := List.mem_map.mp hmem
    exact hid (List.of_mem_zip hw).1

theorem collects_adjoint (he : e.Regular) (hne : id ≠ passive) (hid : id ∉ e.outputs) :
    Collects id e.adjoint := by
  cases e with
  | input => exact .refl id
  | elementary i args x =>
    have hi : i ≠ id := by simpa [outputs, eq_comm] using hid
    refine .of_eq ?_
    intro u hu
    have hget {v : Slots F} (hv : ∀ j, j ≠ id → v.slot j = u.slot j) : v.get i = u.slot i := by
      rw [Slots.get_eq_slot ((hv passive hne.symm).trans hu), hv i hi]
    by_cases hzero : Scalar.isZero (u.slot i) = true
    · refine ⟨_, .refl id, ?_⟩
      intro v hv
      rw [adjoint, Statement.propagate]
      dsimp only
      rw [hget hv, if_pos hzero]
    · have hclear : Collects id fun v : Slots F => v.set i 0 := by
        have hmem : id ∉ [(i, (0 : F))].map Prod.fst := by simpa using hi.symm
        simpa [Slots.scatter, he.1] using Collects.scatter hmem
      refine ⟨_, hclear.trans hne (.distribute hne he.2 (u.slot i)), ?_⟩
      intro v hv
      rw [adjoint, Statement.propagate]
      dsimp only
      rw [hget hv, if_neg hzero]
      rfl
  | product c =>
    refine .of_eq ?_
    intro u hu
    have htaken {v : Slots F} (hv : ∀ j, j ≠ id → v.slot j = u.slot j) :
        v.taken c.results = u.taken c.results := by
      rw [Slots.taken_eq_map _ _ he.2, Slots.taken_eq_map _ _ he.2]
      refine List.map_congr_left fun j hj => hv j ?_
      rintro rfl
      exact hid hj
    have hshare (active : Bool) (ws : List (Identifier × F)) :
        Collects id fun v : Slots F => if active then v.accumulate ws else v := by
      cases active with
      | false => exact .refl id
      | true => exact .accumulate hne ws
    have hclear : Collects id fun v : Slots F => v.scatter (c.results.map fun j => (j, 0)) := by
      apply Collects.scatter
      rw [List.map_map]
      exact (List.map_id c.results).symm ▸ hid
    refine ⟨_, (hclear.trans hne (hshare c.leftActive (c.leftShare
      (.ofList c.order c.rows c.cols (u.taken c.results))))).trans hne
      (hshare c.rightActive (c.rightShare (.ofList c.order c.rows c.cols (u.taken c.results)))), ?_⟩
    intro v hv
    rw [adjoint, Product.Call.adjoint, htaken hv]

end Event

namespace History

variable {id : Identifier} {es : History F}

theorem slot_tangent_of_notMem (hes : ∀ e ∈ es, e.Regular) (hid : id ∉ es.flatMap Event.outputs)
    (v : Slots F) : (tangent es v).slot id = v.slot id := by
  induction es generalizing v with
  | nil => rfl
  | cons e es ih =>
    rw [List.flatMap_cons, List.mem_append, not_or] at hid
    refine (ih (fun e' he' => hes e' (List.mem_cons_of_mem _ he')) hid.2 _).trans ?_
    exact Event.slot_tangent_of_notMem (hes e (by simp)) hid.1 v

theorem collects_adjoint (hes : ∀ e ∈ es, e.Regular) (hne : id ≠ passive)
    (hid : id ∉ es.flatMap Event.outputs) : Collects id (adjoint es) := by
  induction es with
  | nil => exact .refl id
  | cons e es ih =>
    rw [List.flatMap_cons, List.mem_append, not_or] at hid
    have hrest := ih (fun e' he' => hes e' (List.mem_cons_of_mem _ he')) hid.2
    have hfirst := Event.collects_adjoint (hes e (by simp)) hne hid.1
    change Collects id fun v => e.adjoint (adjoint es v)
    exact hrest.trans hne hfirst

theorem mem_writes_of_mem_outputs (hes : ∀ e ∈ es, e.Regular)
    (hid : id ∈ es.flatMap Event.outputs) : id ∈ (writes es).map Prod.fst := by
  obtain ⟨e, he, hid⟩ := List.mem_flatMap.mp hid
  rw [writes, List.map_flatMap]
  refine List.mem_flatMap.mpr ⟨e, he, ?_⟩
  cases e with
  | elementary => exact hid
  | input => simp [Event.outputs] at hid
  | product c =>
    have hfits := (hes _ he).1
    rw [Event.writes, hfits.map_fst_zip]
    exact hid

end History

namespace Tape

def outputIds (t : Tape F) : List Identifier := t.log.flatMap t.outputs

theorem mem_outputIds [LawfulCells F] {t : Tape F} {token : Token} {es : History F}
    (h : Logged t.traits token t.records t.log es) {id : Identifier} :
    id ∈ t.outputIds ↔ id ∈ es.flatMap Event.outputs := by
  have hlog {log : List (Statement F)} {es : History F}
      (hlogged : Logged t.traits token t.records log es) :
      id ∈ log.flatMap t.outputs ↔ id ∈ es.flatMap Event.outputs := by
    induction hlogged with
    | nil => rfl
    | @skip log es e _ he ih =>
      obtain ⟨-, i, value, rfl⟩ := e.exists_input_of_isLogged he
      rw [ih, List.flatMap_append]
      simp [Event.outputs]
    | @append log es st e _ hst ih =>
      rw [List.flatMap_append, List.flatMap_append, List.mem_append, List.mem_append, ih,
        List.flatMap_singleton, List.flatMap_singleton, outputs_eq hst]
  exact hlog h

end Tape

theorem Ledger.Sound.input_grants {n : Nat} {σ σ' : Ledger F n} (h : σ.Sound) {v : Fin n}
    (hrun : σ.run [.input v] = .ok σ') :
    σ'.ids v ≠ passive ∧ (σ.issuer.policy = .linear → σ.issuer.largest < σ'.ids v) ∧
      ∃ value, σ'.history = σ.history ++ [.input (σ'.ids v) value] := by
  obtain ⟨τ, hstep, hrun⟩ := exists_of_bind_eq_ok hrun
  cases hrun
  obtain ⟨τ, hτ, hstep⟩ := exists_of_bind_eq_ok hstep
  obtain ⟨x, hx, hτ⟩ := exists_of_bind_eq_ok hτ
  cases hτ
  have hid : (σ.put x.2 v ⟨(σ.vars v).value, x.1⟩).ids v = x.1 := by
    rw [ids_put, Function.update_self]
  rw [hid] at hstep
  cases hstep
  obtain ⟨y, hy, hgrants⟩ := h.guards.exchange v
  obtain rfl : x = y := Except.ok.inj (hx.symm.trans hy)
  have hlogged : ((σ.put x.2 v ⟨(σ.vars v).value, x.1⟩).log (.input x.1 (σ.vars v).value)).ids v =
      x.1 := hid
  rw [hlogged]
  exact ⟨hgrants.ne_passive, hgrants.fresh, (σ.vars v).value, rfl⟩

namespace Recording

variable {n : Nat}

/-- An input that no later instruction sets is the output of a statement only if it was one before
the registration, which a new identifier never was. If it is none, a full sweep leaves the seed of
the input alone, adds to its adjoint and takes nothing from it. -/
theorem inputs_are_leaves [LawfulCells F] (policy : Policy) (kind : TapeKind) (c : Catalogue F)
    (hk : c.kernels (c.token .product) = some Product.kernel) (values : Fin n → F)
    (before after : List (Instruction F n)) (v : Fin n) (hv : ∀ i ∈ after, v ∉ i.targets) :
    ∃ r₀ r₁ r : Recording F,
      (fresh policy kind values).run c (before.map Instruction.operation) = .ok r₀ ∧
      r₀.run c [.input v] = .ok r₁ ∧
      r₁.run c (after.map Instruction.operation) = .ok r ∧
      (r.get v).identifier = (r₁.get v).identifier ∧
      ((r₁.get v).identifier ∈ r.tape.outputIds ↔ (r₁.get v).identifier ∈ r₀.tape.outputIds) ∧
      (policy = .linear → r₀.tape.issuer.largest < (r₁.get v).identifier) ∧
      (r₀.tape.issuer.largest < (r₁.get v).identifier →
        (r₁.get v).identifier ∉ r₀.tape.outputIds) ∧
      ((r₁.get v).identifier ∉ r₀.tape.outputIds → ∀ x : Slots F, x.slot passive = 0 →
        (∃ s : Traced F, (r.tape.withAdjoints x).tangentSweepAll c.kernels = .ok s ∧
          s.tape.gradient (r₁.get v).identifier = x.slot (r₁.get v).identifier) ∧
        ∃ (terms : List F) (w : Identifier → F), ∀ y : F, ∃ s : Traced F,
          (r.tape.withAdjoints (x.set (r₁.get v).identifier y)).adjointSweepAll c.kernels = .ok s ∧
          s.tape.gradient (r₁.get v).identifier = terms.foldl (· + ·) y ∧
          ∀ id, id ≠ (r₁.get v).identifier → s.tape.gradient id = w id) := by
  have served (is : List (Instruction F n)) : ∀ i ∈ is, i.Served c := fun i _ => i.served hk
  obtain ⟨σ₀, hrun₀, hσ₀, hserved₀, r₀, hr₀, h₀⟩ :=
    fresh_run c policy kind values before (served _)
  obtain ⟨σ₁, hrun₁, hσ₁, hserved₁, r₁, hr₁, h₁⟩ := h₀.run hσ₀ hserved₀ [.input v] (served _)
  obtain ⟨σ, hrun, hσ, hserved, r, hr, h⟩ := h₁.run hσ₁ hserved₁ after (served _)
  obtain ⟨hne, hfresh, value, hhistory₁⟩ := hσ₀.input_grants hrun₁
  obtain ⟨hvar, es, hhistory, hnot⟩ := hσ₁.run_untouched hne hv hrun
  have hid : (r₁.get v).identifier = σ₁.ids v := by
    rw [h₁.get_eq]
    rfl
  have hnone : σ₁.ids v ∉ es.flatMap Event.outputs := by
    have hes : ∀ e ∈ es, e.Regular := fun e he =>
      hσ.regular e (hhistory ▸ List.mem_append_right _ he)
    exact fun hmem => hnot (mem_writes_of_mem_outputs hes hmem)
  have houtputs : σ₁.ids v ∈ r.tape.outputIds ↔ σ₁.ids v ∈ r₀.tape.outputIds := by
    rw [Tape.mem_outputIds h.follows.logged, Tape.mem_outputIds h₀.follows.logged, hhistory,
      hhistory₁, List.flatMap_append, List.flatMap_append, List.mem_append, List.mem_append]
    simp [hnone, Event.outputs]
  have hpolicy : σ₀.issuer.policy = policy :=
    ((Ledger.sound_new policy values).run_history hrun₀).2.1
  have hissuer := h₀.follows.issuer_eq
  refine ⟨r₀, r₁, r, hr₀, hr₁, hr, ?_, ?_, ?_, ?_, ?_⟩
  · rw [hid, h.get_eq, hvar]
    rfl
  · rw [hid]
    exact houtputs
  · rw [hid, hissuer]
    intro hl
    exact hfresh (hpolicy.trans hl)
  · rw [hid, hissuer, Tape.mem_outputIds h₀.follows.logged]
    intro hlt hmem
    have hle := (Ledger.sound_new policy values).run_writes_le (by simp [Ledger.new, writes]) hrun₀
    obtain ⟨w, hw, hwid⟩ := List.mem_map.mp (mem_writes_of_mem_outputs hσ₀.regular hmem)
    exact absurd (hwid ▸ hle w hw) (not_le.mpr hlt)
  · rw [hid, ← houtputs, Tape.mem_outputIds h.follows.logged]
    intro hleaf x hx
    constructor
    · obtain ⟨s, hs, u, hu, hcarries⟩ :=
        h.tangentSweepAll_yields hσ hserved (h.withAdjoints_carries x)
      have hzero := (tangent_congr hσ.regular rfl ((congrFun hu passive).trans hx)).2
      refine ⟨s, hs, ?_⟩
      rw [hcarries.gradient_eq hzero, slot_tangent_of_notMem hσ.regular hleaf, hu]
    · obtain ⟨terms, w, hw, hterms⟩ := collects_adjoint hσ.regular hne hleaf x hx
      refine ⟨terms, w, ?_⟩
      intro y
      obtain ⟨s, hs, u, hu, hcarries⟩ :=
        h.adjointSweepAll_yields hσ hserved (h.withAdjoints_carries (x.set (σ₁.ids v) y))
      have hslot (j : Identifier) : u.slot j = if σ₁.ids v = j then y else x.slot j := by
        rw [hu, Slots.slot_set]
      obtain ⟨hcollected, hother⟩ := hterms u fun j hj => by rw [hslot, if_neg hj.symm]
      have hgradient := hcarries.gradient_eq ((hother passive hne.symm).trans hw)
      refine ⟨s, hs, ?_, ?_⟩
      · rw [hgradient, hcollected, hslot, if_pos rfl]
      · intro id hid
        rw [hgradient, hother id hid]

section Recycled

theorem inputs_are_leaves_fresh :
    ∃ r₀ r₁ r : Recording Int,
      (fresh .reuse .jacobian ![2, 3, 5, 0]).run productOnly
        [.input 0, .assign 1 6 [(.variable 0, 2)]] = .ok r₀ ∧
      r₀.run productOnly [.input 2] = .ok r₁ ∧
      r₁.run productOnly [.release 1, .assign 3 35 [(.variable 2, 7), (.variable 0, 1)]] = .ok r ∧
      (∃ s : Traced Int,
        (r.tape.withAdjoints ⟨0, [0, 0, 11]⟩).tangentSweepAll productOnly.kernels = .ok s ∧
        s.tape.gradient (r₁.get 2).identifier = 11) ∧
      ∃ (terms : List Int) (w : Identifier → Int), ∀ y : Int, ∃ s : Traced Int,
        (r.tape.withAdjoints ((⟨0, [0, 1]⟩ : Slots Int).set (r₁.get 2).identifier
          y)).adjointSweepAll productOnly.kernels = .ok s ∧
        s.tape.gradient (r₁.get 2).identifier = terms.foldl (· + ·) y ∧
        ∀ id, id ≠ (r₁.get 2).identifier → s.tape.gradient id = w id := by
  obtain ⟨r₀, r₁, r, h₀, h₁, h, -, -, -, hnew, hleaf⟩ := inputs_are_leaves .reuse .jacobian
    productOnly rfl ![2, 3, 5, 0] [.input 0, .line (.assign 1 6 [(0, 2)])]
    [.line (.release 1), .line (.assign 3 35 [(2, 7), (0, 1)])] 2 (by decide)
  cases h₀
  cases h₁
  cases h
  refine ⟨_, _, _, rfl, rfl, rfl, ?_, ?_⟩
  · exact (hleaf (hnew (by decide)) ⟨0, [0, 0, 11]⟩ rfl).1
  · exact (hleaf (hnew (by decide)) ⟨0, [0, 1]⟩ rfl).2

/-- The second input gets the identifier of a result that has died. The statement of the dead result
takes the adjoint of the input and hands it on to the first one. -/
theorem not_inputs_are_leaves_recycled :
    ∃ r : Recording Int,
      (fresh .reuse .jacobian ![2, 3, 5, 0]).run productOnly
        [.input 0, .assign 1 6 [(.variable 0, 2)], .release 1, .input 2,
          .assign 3 35 [(.variable 2, 7)]] = .ok r ∧
      (r.get 2).identifier ∈ r.tape.outputIds ∧
      ∃ s : Traced Int,
        (r.tape.withAdjoints ⟨0, [0, 0, 1]⟩).adjointSweepAll productOnly.kernels = .ok s ∧
        s.tape.gradient (r.get 2).identifier = 0 ∧ s.tape.gradient (r.get 0).identifier = 14 :=
  ⟨_, rfl, by decide, _, rfl, rfl, rfl⟩

end Recycled

end Recording

end Autodiff
