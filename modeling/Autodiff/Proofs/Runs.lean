import Autodiff.Proofs.ProductTracking

namespace Autodiff

open History

variable {F : Type} [Scalar F] {n : Nat}

namespace Instruction

def Served (c : Catalogue F) : Instruction F n → Prop
  | multiply _ => c.kernels (c.token .product) = some Product.kernel
  | _ => True

theorem served {c : Catalogue F} (h : c.kernels (c.token .product) = some Product.kernel)
    (i : Instruction F n) : i.Served c := by
  cases i with
  | line l => trivial
  | input v => trivial
  | multiply p => exact h

end Instruction

def Ledger.run (σ : Ledger F n) (program : List (Instruction F n)) : Except Fault (Ledger F n) :=
  program.foldlM Ledger.step σ

theorem Ledger.served_step {c : Catalogue F} {σ σ' : Ledger F n} (hσ : σ.Sound)
    (h : ∀ e ∈ σ.history, e.Served c.kernels (c.token .product)) {i : Instruction F n}
    (hi : i.Served c) (hstep : σ.step i = .ok σ') :
    ∀ e ∈ σ'.history, e.Served c.kernels (c.token .product) := by
  have hlog {τ : Ledger F n} (hτ : τ.history = σ.history) {e : Event F}
      (he : e.Served c.kernels (c.token .product)) :
      ∀ e' ∈ (τ.log e).history, e'.Served c.kernels (c.token .product) := by
    intro e' he'
    rcases List.mem_append.mp he' with he' | he'
    · exact h e' (hτ ▸ he')
    · rw [List.mem_singleton.mp he']
      exact he
  have hrelease {v : Fin n} {value : F} (hr : σ.release v value = .ok σ') :
      ∀ e ∈ σ'.history, e.Served c.kernels (c.token .product) := by
    obtain ⟨m, -, hr⟩ := exists_of_bind_eq_ok hr
    cases hr
    exact h
  cases i with
  | input v =>
    obtain ⟨τ, hτ, hstep⟩ := exists_of_bind_eq_ok hstep
    obtain ⟨x, -, hτ⟩ := exists_of_bind_eq_ok hτ
    cases hτ
    cases hstep
    exact hlog rfl trivial
  | multiply p =>
    obtain ⟨σ₁, hok, τ, -, hplaced, rfl⟩ := Ledger.multiply_yields hσ.guards p
    obtain rfl : σ' = _ := Except.ok.inj (hstep.symm.trans hok)
    have hτ : τ.history = σ.history := hplaced.issuer_history.2.2
    rw [Ledger.logCall]
    split
    · exact hlog hτ hi
    · rw [hτ]
      exact h
  | line l =>
    cases l with
    | constant v value =>
      cases hstep
      exact h
    | release v => exact hrelease hstep
    | assign v value args =>
      rw [Ledger.step, Ledger.line] at hstep
      split at hstep
      · exact hrelease hstep
      · cases hstep
        exact hlog rfl trivial
    | output v =>
      rw [Ledger.step, Ledger.line] at hstep
      split at hstep
      · cases hstep
        exact h
      · obtain ⟨m, -, hstep⟩ := exists_of_bind_eq_ok hstep
        cases hstep
        exact hlog rfl trivial

theorem Ledger.run_append (σ : Ledger F n) (is js : List (Instruction F n)) :
    σ.run (is ++ js) = σ.run is >>= fun σ' => σ'.run js := List.foldlM_append

namespace Recording

variable {c : Catalogue F} {r : Recording F} {σ σ' : Ledger F n}

namespace Tracks

variable [LawfulCells F]

theorem step (h : r.Tracks (c.token .product) σ) (hσ : σ.Sound) {i : Instruction F n}
    (hi : i.Served c) (hstep : σ.step i = .ok σ') :
    Yields (r.apply c i.operation) fun x => x.2.Tracks (c.token .product) σ' := by
  cases i with
  | line l => exact h.line hσ c hstep
  | input v => exact h.input hσ c hstep
  | multiply p => exact h.multiply hσ hi hstep

theorem run (h : r.Tracks (c.token .product) σ) (hσ : σ.Sound)
    (hserved : ∀ e ∈ σ.history, e.Served c.kernels (c.token .product))
    (program : List (Instruction F n)) (hi : ∀ i ∈ program, i.Served c) :
    Yields (σ.run program) fun σ' => σ'.Sound ∧
      (∀ e ∈ σ'.history, e.Served c.kernels (c.token .product)) ∧
      Yields (r.run c (program.map Instruction.operation)) fun r' =>
        r'.Tracks (c.token .product) σ' := by
  induction program generalizing r σ with
  | nil => exact .ok ⟨hσ, hserved, .ok h⟩
  | cons i program ih =>
    obtain ⟨σ₁, hstep, hσ₁, -⟩ := hσ.step i
    obtain ⟨x, happly, hx⟩ := h.step hσ (hi i (by simp)) hstep
    have hserved₁ := Ledger.served_step hσ hserved (hi i (by simp)) hstep
    have hrest := ih hx hσ₁ hserved₁ fun j hj => hi j (List.mem_cons_of_mem _ hj)
    rw [Ledger.run, List.foldlM_cons, hstep]
    refine hrest.mono fun σ' ⟨hσ', hserved', hrun⟩ => ⟨hσ', hserved', ?_⟩
    rw [List.map_cons, Recording.run, happly]
    exact hrun

end Tracks

theorem fresh_run [LawfulCells F] (c : Catalogue F) (policy : Policy) (kind : TapeKind)
    (values : Fin n → F) (program : List (Instruction F n)) (hi : ∀ i ∈ program, i.Served c) :
    Yields ((Ledger.new policy values).run program) fun σ' => σ'.Sound ∧
      (∀ e ∈ σ'.history, e.Served c.kernels (c.token .product)) ∧
      Yields ((fresh policy kind values).run c (program.map Instruction.operation)) fun r' =>
        r'.Tracks (c.token .product) σ' :=
  (fresh_tracks (c.token .product) policy kind values).run (Ledger.sound_new policy values)
    (by simp [Ledger.new]) program hi

end Recording

section Readiness

namespace History

variable {es es' : History F} {x : Variable F} {traits : Traits}

theorem redo_of_all_logged (hall : ∀ e ∈ es, e.isLogged traits = true)
    (q : Identifier → F) : redo traits es q = overwrite q (writes es) := by
  rw [redo, List.filter_eq_self.mpr hall, writes]
  clear hall
  induction es generalizing q with
  | nil => rfl
  | cons e es ih =>
    rw [List.foldl_cons, ih, List.flatMap_cons, overwrite_append]
    rfl

theorem redo_of_distinct (hd : DistinctActive ((writes es).map Prod.fst)) (hp : es' <+: es) :
    redo traits es' (primals es) = primals es := by
  have hsame : ∀ e ∈ es', e.redo (primals es) = primals es := by
    intro e he
    refine overwrite_eq_self fun w hw hne => overwrite_of_mem _ hd ?_ hne
    exact List.mem_flatMap.mpr ⟨e, hp.subset he, hw⟩
  rw [redo]
  clear hp
  induction es' with
  | nil => rfl
  | cons e es' ih =>
    have hrest := ih fun e' he' => hsame e' (List.mem_cons_of_mem _ he')
    rw [List.filter_cons]
    split
    · rw [List.foldl_cons, hsame e (by simp), hrest]
    · exact hrest

theorem Holds.of_distinct (h : Holds es' x) (hd : DistinctActive ((writes es).map Prod.fst))
    (hp : es' <+: es) (hx : x.identifier ≠ passive) : primals es x.identifier = x.value := by
  obtain ⟨hmem, hvalue⟩ := h hx
  obtain ⟨⟨id, y⟩, hy, hid⟩ := List.mem_map.mp hmem
  obtain rfl : id = x.identifier := hid
  obtain ⟨fs, rfl⟩ := hp
  have hwrites : writes (es' ++ fs) = writes es' ++ writes fs := by simp [writes]
  rw [hwrites, List.map_append] at hd
  have hsub : DistinctActive ((writes es').map Prod.fst) := (List.pairwise_append.mp hd).1
  rw [← List.map_append] at hd
  rw [← hvalue, primals, hwrites, overwrite_of_mem _ hd (List.mem_append_left _ hy) hx, primals,
    overwrite_of_mem _ hsub hy hx]

theorem Holds.of_all_logged (h : Holds es' x) (hall : ∀ e ∈ es', e.isLogged traits = true)
    (q : Identifier → F) (hx : x.identifier ≠ passive) :
    redo traits es' q x.identifier = x.value := by
  obtain ⟨hmem, hvalue⟩ := h hx
  rw [redo_of_all_logged hall, overwrite_congr_of_mem q (fun _ => 0) hx hmem]
  exact hvalue

theorem redo_congr {p q : Identifier → F} {id : Identifier} (h : p id = q id) :
    redo traits es p id = redo traits es q id := by
  rw [redo, redo]
  induction es.filter (Event.isLogged traits) generalizing p q with
  | nil => exact h
  | cons e es ih => exact ih (overwrite_congr h)

theorem redo_primals
    (hd : DistinctActive ((writes es).map Prod.fst) ∨ traits.rollsBack = true) :
    redo traits es (primals es) = primals es := by
  rcases hd with hd | hb
  · exact redo_of_distinct hd (List.prefix_refl _)
  · rw [redo_of_all_logged fun e _ => e.isLogged_of_rollsBack hb]
    funext id
    by_cases hid : id = passive
    · rw [hid, overwrite_passive]
    · by_cases hmem : id ∈ (writes es).map Prod.fst
      · exact overwrite_congr_of_mem _ _ hid hmem
      · exact overwrite_of_notMem _ hmem

variable {e : Event F} {q : Identifier → F}
  (h : ∀ c, e = .product c → ∀ x ∈ c.left ++ c.right, Holds es' x) (hp : es' <+: es)
  (hq : traits.rollsBack = false → ∀ id ∈ (writes es').map Prod.fst, id ≠ passive →
    q id = primals es id)
  (hd : traits.rollsBack = false → DistinctActive ((writes es).map Prod.fst))
include h hp hq hd

theorem ready_redo : e.Ready (redo traits es' q) := by
  cases e with
  | elementary => trivial
  | input => trivial
  | product c =>
    intro x hx hactive
    have hne : x.identifier ≠ passive := by simpa [Variable.isActive] using hactive
    have hholds := h c rfl x hx
    -- Either no identifier is ever written twice, or all writes up to the call are repeated.
    cases hb : traits.rollsBack with
    | false =>
      rw [redo_congr (hq hb _ (hholds hne).1 hne), redo_of_distinct (hd hb) hp]
      exact hholds.of_distinct (hd hb) hp hne
    | true => exact hholds.of_all_logged (fun e _ => e.isLogged_of_rollsBack hb) _ hne

theorem ready_rewound : e.Ready (if traits.rollsBack then primals es' else q) := by
  cases e with
  | elementary => trivial
  | input => trivial
  | product c =>
    intro x hx hactive
    have hne : x.identifier ≠ passive := by simpa [Variable.isActive] using hactive
    have hholds := h c rfl x hx
    -- Where an identifier may be written twice, the sweep has rolled back to the call.
    cases hb : traits.rollsBack with
    | false => exact (hq hb _ (hholds hne).1 hne).trans (hholds.of_distinct (hd hb) hp hne)
    | true => exact (hholds hne).2

end History

namespace Ledger.Sound

variable {σ : Ledger F n} {traits : Traits} {es : History F} {e : Event F}

variable (h : σ.Sound) (hl : traits.linear = σ.issuer.policy.isLinear)
  (hp : traits.hasPrimals = true)
include h hl hp

theorem linear_or_rollsBack : DistinctActive ((writes σ.history).map Prod.fst) ∧
    traits.rollsBack = false ∨ traits.rollsBack = true := by
  cases hpolicy : σ.issuer.policy with
  | linear =>
    rw [hpolicy] at hl
    exact .inl ⟨h.distinct hpolicy, by simp [Traits.rollsBack, hl, Policy.isLinear]⟩
  | reuse =>
    rw [hpolicy] at hl
    exact .inr (by simp [Traits.rollsBack, hl, hp, Policy.isLinear])

theorem distinct_or_rollsBack :
    DistinctActive ((writes σ.history).map Prod.fst) ∨ traits.rollsBack = true :=
  (h.linear_or_rollsBack hl hp).imp_left And.left

theorem ready_forward (hfirst : es ++ [e] <+: σ.history) :
    e.Ready (redo traits es (primals σ.history)) :=
  ready_redo (fun c hc => h.known es c (hc ▸ hfirst)) ((List.prefix_append es [_]).trans hfirst)
    (fun _ _ _ _ => rfl) fun hb => (h.distinct_or_rollsBack hl hp).resolve_right (by simp [hb])

theorem ready_reverse (hfirst : es ++ [e] <+: σ.history) :
    e.Ready (if traits.rollsBack then primals es else primals σ.history) :=
  ready_rewound (fun c hc => h.known es c (hc ▸ hfirst)) ((List.prefix_append es [_]).trans hfirst)
    (fun _ _ _ _ => rfl) fun hb => (h.distinct_or_rollsBack hl hp).resolve_right (by simp [hb])

end Ledger.Sound

end Readiness

section Sweeps

variable [LawfulCells F] {kernels : Kernels F} {token : Token} {r : Recording F} {σ : Ledger F n}
  {t base : Tape F} {x : Slots F}

omit [LawfulCells F] in
theorem Tape.Carries.trans {s : Tape F} {u : Slots F} {p q : Identifier → F}
    (h : s.Carries t u p) (h' : t.Carries base x q) : s.Carries base u p :=
  ⟨h.issuer_eq.trans h'.issuer_eq, h.log_eq.trans h'.log_eq, h.pending_eq.trans h'.pending_eq,
    h.records_eq.trans h'.records_eq, h.hasPrimals_eq.trans h'.hasPrimals_eq, h.lent_eq,
    h.adjoints_eq, h.primals_eq⟩

namespace Recording.Tracks

omit [LawfulCells F] in
theorem withAdjoints_carries (h : r.Tracks token σ) (x : Slots F) :
    (r.tape.withAdjoints x).Carries r.tape x (primals σ.history) :=
  ⟨rfl, rfl, rfl, rfl, rfl, h.follows.lent_eq, rfl, h.follows.primals_eq⟩

variable (h : r.Tracks token σ) (hσ : σ.Sound) (hserved : ∀ e ∈ σ.history, e.Served kernels token)
  (ht : t.Carries r.tape x (primals σ.history))
include h hσ hserved ht

theorem tangentSweepAll_yields : Yields (t.tangentSweepAll kernels) fun s =>
    ∃ u : Slots F, u.slot = x.slot ∧
      s.tape.Carries r.tape (tangent σ.history u) (primals σ.history) := by
  have hlinear : t.traits.linear = σ.issuer.policy.isLinear := by
    rw [← h.follows.issuer_eq, ← ht.issuer_eq]
    rfl
  have hlog : Logged t.traits token t.records (t.range .zero t.position) σ.history := by
    rw [ht.traits_eq, ht.records_eq, t.range_zero_position, ht.log_eq]
    exact h.follows.logged
  have hsweep := t.tangentSweep_yields hserved ⟨Nat.zero_le _, Nat.le_refl _⟩ ht.lent_eq
    ht.primals_eq (primals_passive _) hlog fun es e hfirst hp =>
      hσ.ready_forward hlinear hp hfirst
  refine hsweep.mono fun s hs => ⟨t.opening .zero t.position,
    (t.slot_opening ..).trans (congrArg _ ht.adjoints_eq), Tape.Carries.trans ?_ ht⟩
  cases hp : t.hasPrimals with
  | true =>
    rw [History.redo_primals (hσ.distinct_or_rollsBack hlinear hp)] at hs
    exact hs
  | false =>
    refine { hs with primals_eq := fun p hprimals => ?_ }
    have hs' := hs.hasPrimals_eq.trans hp
    rw [Tape.hasPrimals, Vectors.hasPrimals, Option.mem_def.mp hprimals] at hs'
    cases hs'

theorem adjointSweepAll_carries : Yields (t.adjointSweepAll kernels) fun s =>
    s.tape.Carries r.tape (adjoint σ.history (t.opening .zero t.position)) (primals σ.history) := by
  have hlinear : t.traits.linear = σ.issuer.policy.isLinear := by
    rw [← h.follows.issuer_eq, ← ht.issuer_eq]
    rfl
  have hlog : Logged t.traits token t.records (t.range .zero t.position) σ.history := by
    rw [ht.traits_eq, ht.records_eq, t.range_zero_position, ht.log_eq]
    exact h.follows.logged
  have hsweep := t.adjointSweep_yields hserved ⟨Nat.zero_le _, Nat.le_refl _⟩ ht.lent_eq
    ht.primals_eq (primals_passive _) hlog (fun _ => rfl) fun es e hfirst hp =>
      hσ.ready_reverse hlinear hp hfirst
  exact hsweep.mono fun s hs => hs.trans ht

theorem adjointSweepAll_yields : Yields (t.adjointSweepAll kernels) fun s =>
    ∃ u : Slots F, u.slot = x.slot ∧
      s.tape.Carries r.tape (adjoint σ.history u) (primals σ.history) :=
  (h.adjointSweepAll_carries hσ hserved ht).mono fun _ hs =>
    ⟨_, (t.slot_opening ..).trans (congrArg _ ht.adjoints_eq), hs⟩

end Recording.Tracks

end Sweeps

end Autodiff
