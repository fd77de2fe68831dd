import Autodiff.Proofs.Derivative

namespace Autodiff

open History

variable {F : Type} [ExactScalar F] {n : Nat}

theorem derivative_tangent_eq_zero {d : Fin n → Dual F} (h : ∀ v, (d v).tangent = 0)
    (lines : List (Line F n)) (v : Fin n) : (derivative d lines v).tangent = 0 := by
  induction lines generalizing d with
  | nil => exact h v
  | cons l lines ih =>
    refine ih (d := l.derive d) fun w => ?_
    have hupdate (u : Fin n) (y : Dual F) (hy : y.tangent = 0) :
        (Function.update d u y w).tangent = 0 := by
      by_cases hw : w = u
      · rw [hw, Function.update_self, hy]
      · rw [Function.update_of_ne hw, h w]
    cases l with
    | constant u value => exact hupdate u _ rfl
    | output u => exact h w
    | release u => exact hupdate u _ rfl
    | assign u value args =>
      rw [Line.derive]
      split
      · exact hupdate u _ (by simp [h])
      · exact hupdate u _ rfl

theorem seeded_congr {values seeds seeds' : Fin n → F} {inputs : List (Fin n)}
    (h : ∀ v ∈ inputs, seeds v = seeds' v) :
    seeded values inputs seeds = seeded values inputs seeds' := by
  funext v
  rw [seeded, seeded]
  split
  · rename_i hv
    rw [h v hv]
  · rfl

theorem seeded_zero_tangent {values : Fin n → F} {inputs : List (Fin n)} (v : Fin n) :
    (seeded values inputs 0 v).tangent = 0 := by
  rw [seeded]
  split <;> rfl

namespace Ledger

variable {σ σ' : Ledger F n} {x y : Identifier → F} {d : Fin n → Dual F} {values : Fin n → F}
  {inputs : List (Fin n)}

theorem Matches.lines (h : σ.Matches x d) (hσ : σ.Sound) (hx : x passive = 0)
    {lines : List (Line F n)} (hrun : σ.run (lines.map .line) = .ok σ') :
    σ'.Matches x (derivative d lines) := by
  induction lines generalizing σ d with
  | nil =>
    cases hrun
    exact h
  | cons l lines ih =>
    obtain ⟨σ₁, hstep, hrun⟩ := exists_of_bind_eq_ok hrun
    obtain ⟨σ₂, hok, hσ₁, -⟩ := hσ.step (.line l)
    obtain rfl : σ₁ = σ₂ := Except.ok.inj (hstep.symm.trans hok)
    exact ih (h.line hσ hx hstep) hσ₁ hrun

structure Registered (values : Fin n → F) (inputs : List (Fin n)) (σ : Ledger F n) : Prop where
  value_eq : ∀ v, (σ.vars v).value = values v
  active_iff : ∀ v, (σ.vars v).isActive = true ↔ v ∈ inputs
  still : ∀ e ∈ σ.history, e.block = []

theorem Registered.snoc (h : Registered values inputs σ) (hσ : σ.Sound) {v : Fin n}
    (hstep : σ.step (.input v) = .ok σ') : Registered values (inputs ++ [v]) σ' := by
  obtain ⟨y, hok, hy⟩ := hσ.guards.exchange v
  have hrenew : σ.renew v = .ok (σ.put y.2 v ⟨(σ.vars v).value, y.1⟩) := by
    rw [renew, hok]
    rfl
  rw [step, hrenew] at hstep
  cases hstep
  constructor
  · intro w
    by_cases hw : w = v
    · simpa [log, put, hw] using h.value_eq v
    · simpa [log, put, hw] using h.value_eq w
  · intro w
    by_cases hw : w = v
    · simp [log, put, hw, Variable.isActive, hy.ne_passive]
    · simpa [log, put, hw] using h.active_iff w
  · intro e he
    rcases List.mem_append.mp he with he | he
    · exact h.still e he
    · rw [List.mem_singleton.mp he]
      rfl

theorem registered_of_run {policy : Policy}
    (hrun : (new policy values).run (inputs.map .input) = .ok σ) :
    Registered values inputs σ ∧ σ.Sound := by
  induction inputs using List.reverseRecOn generalizing σ with
  | nil =>
    cases hrun
    exact ⟨⟨fun _ => rfl, fun v => by simp [new, Variable.constant, Variable.isActive], nofun⟩,
      sound_new policy values⟩
  | append_singleton inputs v ih =>
    rw [List.map_append, run_append] at hrun
    obtain ⟨σ₁, hfirst, hlast⟩ := exists_of_bind_eq_ok hrun
    obtain ⟨hregistered, hσ₁⟩ := ih hfirst
    obtain ⟨σ₂, hok, hσ₂, -⟩ := hσ₁.step (.input v)
    rw [List.map_singleton, run, List.foldlM_cons, hok] at hlast
    cases hlast
    exact ⟨hregistered.snoc hσ₁ hok, hσ₂⟩

namespace Registered

theorem tangentMap_eq (h : Registered values inputs σ) (x : Identifier → F) :
    tangentMap σ.history x = x := by
  have hstill := h.still
  generalize σ.history = es at hstill
  induction es generalizing x with
  | nil => rfl
  | cons e es ih =>
    have he : e.block.tangentLinear x = x := by
      rw [hstill e (by simp)]
      rfl
    change tangentMap es (e.block.tangentLinear x) = x
    rw [he]
    exact ih x fun e' he' => hstill e' (List.mem_cons_of_mem _ he')

theorem toMatches (h : Registered values inputs σ) (hx : x passive = 0) :
    σ.Matches x (seeded values inputs fun v => x (σ.ids v)) := by
  have hpassive : ∀ v, v ∉ inputs → σ.ids v = passive := by
    intro v hv
    by_contra hne
    exact hv ((h.active_iff v).mp (bne_iff_ne.mpr hne))
  constructor
  · intro v
    rw [h.value_eq v, seeded]
    split <;> rfl
  · intro v
    rw [seeded]
    split
    · rename_i hv
      exact (h.active_iff v).mpr hv
    · rename_i hv
      exact bne_eq_false_iff_eq.mpr (hpassive v hv)
  · intro v
    rw [h.tangentMap_eq, seeded]
    split
    · rfl
    · rename_i hv
      rw [hpassive v hv, hx]
      rfl

theorem matches_single (h : Registered values inputs σ) (hσ : σ.Sound) {v : Fin n}
    (hv : v ∈ inputs) :
    σ.Matches (Pi.single (σ.ids v) 1) (seeded values inputs (Pi.single v 1)) := by
  have hactive : σ.ids v ≠ passive := bne_iff_ne.mp ((h.active_iff v).mpr hv)
  have hseeds : seeded values inputs
      (fun u => (Pi.single (σ.ids v) 1 : Identifier → F) (σ.ids u)) =
      seeded values inputs (Pi.single v 1) := by
    refine seeded_congr fun u _ => ?_
    by_cases huv : u = v
    · rw [huv, Pi.single_eq_same, Pi.single_eq_same]
    · rw [Pi.single_eq_of_ne huv, Pi.single_eq_of_ne]
      exact (hσ.guards.distinct v u (Ne.symm huv) hactive).symm
  rw [← hseeds]
  exact h.toMatches (Pi.single_eq_of_ne (Ne.symm hactive) 1)

theorem matches_zero (h : Registered values inputs σ) {id : Identifier}
    (hid : id ≠ passive) (hnot : ∀ v ∈ inputs, σ.ids v ≠ id) :
    σ.Matches (Pi.single id 1) (seeded values inputs 0) := by
  have hseeds : seeded values inputs (fun v => (Pi.single id 1 : Identifier → F) (σ.ids v)) =
      seeded values inputs 0 := seeded_congr fun v hv => Pi.single_eq_of_ne (hnot v hv) 1
  rw [← hseeds]
  exact h.toMatches (Pi.single_eq_of_ne (Ne.symm hid) 1)

end Registered

theorem Sound.adjointMap_eq_sum (hσ : σ.Sound)
    (hy : ∀ id, (∀ v, σ.ids v = id → id = passive) → y id = 0) {id : Identifier}
    (hid : id ≠ passive) : adjointMap σ.history y id =
      ∑ v, y (σ.ids v) * tangentMap σ.history (Pi.single id 1) (σ.ids v) := by
  have hzero : y passive = 0 := hy passive fun _ _ => rfl
  obtain ⟨N, hN⟩ := exists_below σ.history
  let M := max N (max (id + 1) (σ.issuer.largest + 1))
  have hM : Below σ.history M := fun e he => (hN e he).mono (le_max_left ..)
  have hidM : id < M := (Nat.lt_succ_self id).trans_le (le_max_of_le_right (le_max_left ..))
  have hdual := sum_tangentMap_mul hσ.regular hM (Pi.single id (1 : F)) y
    (Pi.single_eq_of_ne (Ne.symm hid) 1) hzero
  have hright : ∑ i ∈ Finset.range M, (Pi.single id (1 : F) : Identifier → F) i *
      adjointMap σ.history y i = adjointMap σ.history y id := by
    simp [Pi.single_apply, hidM]
  rw [← hright, ← hdual]
  -- Only identifiers that some variable holds have adjoints, and no two variables share one.
  let held := Finset.univ.filter fun v => σ.ids v ≠ passive
  have hinj : Set.InjOn σ.ids held := by
    intro v hv w _ heq
    by_contra hne
    exact hσ.guards.distinct v w hne (Finset.mem_filter.mp hv).2 heq
  have hsub : held.image σ.ids ⊆ Finset.range M := by
    intro i hi
    obtain ⟨v, -, rfl⟩ := Finset.mem_image.mp hi
    have hle := hσ.guards.held_le v
    exact Finset.mem_range.mpr ((Nat.lt_succ_of_le hle).trans_le
      (le_max_of_le_right (le_max_right ..)))
  rw [← Finset.sum_subset hsub, Finset.sum_image hinj, Finset.sum_filter]
  · refine Finset.sum_congr rfl fun v _ => ?_
    split
    · exact mul_comm ..
    · rename_i hv
      rw [not_not.mp hv, hzero, zero_mul]
  · intro i _ hi
    have hnone : y i = 0 := by
      refine hy i fun v hv => ?_
      by_contra hne
      exact hi (Finset.mem_image.mpr ⟨v, by simp [held, hv, hne], hv⟩)
    rw [hnone, mul_zero]

end Ledger

namespace Recording.Tracks

variable {kernels : Kernels F} {token : Token} {r : Recording F} {σ : Ledger F n} {x y : Slots F}
  {d : Fin n → Dual F}

theorem tangents_yields (h : r.Tracks token σ) (hσ : σ.Sound)
    (hserved : ∀ e ∈ σ.history, e.Served kernels token) (hx : x.slot passive = 0)
    (hd : σ.Matches x.slot d) :
    Yields ((r.tape.withAdjoints x).tangentSweepAll kernels) fun s =>
      ∀ v : Fin n, s.tape.gradient (r.get v).identifier = (d v).tangent := by
  refine (h.tangentSweepAll_yields hσ hserved (h.withAdjoints_carries x)).mono ?_
  rintro s ⟨u, hu, hs⟩ v
  have hslot := slot_tangent hσ.regular (v := u) (by rw [hu, hx])
  have hzero : (tangent σ.history u).slot passive = 0 := by
    rw [hslot, tangentMap_passive, hu, hx]
  rw [Tape.gradient, Vectors.gradient, hs.adjoints_eq, Slots.get_eq_slot hzero, hslot, hu,
    h.get_eq v]
  exact hd.tangent_eq v

theorem adjoints_yields (h : r.Tracks token σ) (hσ : σ.Sound)
    (hserved : ∀ e ∈ σ.history, e.Served kernels token)
    (hy : ∀ id, (∀ v : Fin n, (r.get v).isActive = true → (r.get v).identifier ≠ id) →
      y.slot id = 0) :
    Yields ((r.tape.withAdjoints y).adjointSweepAll kernels) fun s =>
      s.tape.gradient passive = 0 ∧ ∀ id, id ≠ passive → s.tape.gradient id =
        ∑ v : Fin n, y.slot (r.get v).identifier *
          tangentMap σ.history (Pi.single id 1) (σ.ids v) := by
  have hheld : ∀ id, (∀ v, σ.ids v = id → id = passive) → y.slot id = 0 := by
    intro id hid
    refine hy id fun v hactive heq => ?_
    rw [h.get_eq] at hactive heq
    rw [Variable.isActive, heq, hid v heq] at hactive
    cases hactive
  have hzero : y.slot passive = 0 := hheld passive fun _ _ => rfl
  refine (h.adjointSweepAll_yields hσ hserved (h.withAdjoints_carries y)).mono ?_
  rintro s ⟨u, hu, hs⟩
  have hslot := slot_adjoint hσ.regular (v := u) (by rw [hu, hzero])
  have hpassive : (adjoint σ.history u).slot passive = 0 := by
    rw [hslot, adjointMap_passive, hu, hzero]
  simp only [Tape.gradient, Vectors.gradient, hs.adjoints_eq, Slots.get_eq_slot hpassive, hslot, hu]
  constructor
  · rw [adjointMap_passive, hzero]
  · intro id hid
    rw [hσ.adjointMap_eq_sum hheld hid]
    simp only [h.get_eq]
    rfl

end Recording.Tracks

open Recording in
/-- A tangent sweep from seeds of the inputs gives every active variable its tangent. An adjoint
sweep from adjoints of the active variables gives every input the sum of its partial derivatives,
weighted with these adjoints, and leaves nothing anywhere else. -/
theorem sweeps_differentiate (policy : Policy) (kind : TapeKind) (c : Catalogue F)
    (values : Fin n → F) (inputs : List (Fin n)) (lines : List (Line F n)) :
    ∃ registered final : Recording F,
      (fresh policy kind values).run c (inputs.map fun v => .input v.val) =
        .ok registered ∧
      registered.run c (lines.map Line.operation) = .ok final ∧
      (∀ x : Slots F, x.slot passive = 0 →
        let d := derivative (seeded values inputs fun v => x.slot (registered.get v).identifier) lines
        (∀ v : Fin n, (final.get v).value = (d v).value ∧
          (final.get v).isActive = (d v).active) ∧
        Yields ((final.tape.withAdjoints x).tangentSweepAll c.kernels) fun s =>
          ∀ v : Fin n, (final.get v).isActive = true →
            s.tape.gradient (final.get v).identifier = (d v).tangent) ∧
      ∀ y : Slots F, (∀ id, (∀ v : Fin n, (final.get v).isActive = true →
          (final.get v).identifier ≠ id) → y.slot id = 0) →
        Yields ((final.tape.withAdjoints y).adjointSweepAll c.kernels) fun s =>
          (∀ v ∈ inputs, s.tape.gradient (registered.get v).identifier =
            ∑ w : Fin n, y.slot (final.get w).identifier *
              (derivative (seeded values inputs (Pi.single v 1)) lines w).tangent) ∧
          ∀ id, (∀ v ∈ inputs, (registered.get v).identifier ≠ id) →
            s.tape.gradient id = 0 := by
  have hfirst := fresh_run c policy kind values (inputs.map .input) (by simp [Instruction.Served])
  obtain ⟨σ₀, hσ₀run, hσ₀, hserved₀, registered, hregistered, htracks₀⟩ := hfirst
  have hlast := htracks₀.run hσ₀ hserved₀ (lines.map .line) (by simp [Instruction.Served])
  obtain ⟨σ, hσrun, hσ, hserved, final, hfinal, htracks⟩ := hlast
  -- After registration, seeds of the inputs are seeds of the identifiers that they hold.
  obtain ⟨hinputs, -⟩ := Ledger.registered_of_run hσ₀run
  rw [List.map_map] at hregistered hfinal
  refine ⟨registered, final, hregistered, hfinal, fun x hx => ?_, fun y hy => ?_⟩
  · have hd := (hinputs.toMatches hx).lines hσ₀ hx hσrun
    simp only [htracks₀.get_eq]
    refine ⟨fun v => ?_, ?_⟩
    · rw [htracks.get_eq v]
      exact ⟨hd.value_eq v, hd.active_eq v⟩
    · exact (htracks.tangents_yields hσ hserved hx hd).mono fun s hs v _ => hs v
  · refine (htracks.adjoints_yields hσ hserved hy).mono ?_
    rintro s ⟨hzero, hs⟩
    constructor
    · intro v hv
      have hactive : σ₀.ids v ≠ passive := bne_iff_ne.mp ((hinputs.active_iff v).mpr hv)
      have hd := (hinputs.matches_single hσ₀ hv).lines hσ₀
        (Pi.single_eq_of_ne (Ne.symm hactive) 1) hσrun
      rw [htracks₀.get_eq v]
      refine (hs _ hactive).trans (Finset.sum_congr rfl fun w _ => ?_)
      rw [hd.tangent_eq w]
    · intro id hid
      simp only [htracks₀.get_eq] at hid
      by_cases hpassive : id = passive
      · rw [hpassive, hzero]
      · have hd := (hinputs.matches_zero hpassive hid).lines hσ₀
          (Pi.single_eq_of_ne (Ne.symm hpassive) 1) hσrun
        refine (hs id hpassive).trans (Finset.sum_eq_zero fun w _ => ?_)
        rw [hd.tangent_eq w, derivative_tangent_eq_zero seeded_zero_tangent, mul_zero]

end Autodiff
