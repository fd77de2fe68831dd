import Autodiff.Proofs.Runs

namespace Autodiff

open History

variable {F : Type} [Scalar F] {n : Nat} {u v : Slots F}

namespace Slots

theorem modify_congr (h : u.slot = v.slot) (id : Identifier) (f : F → F) :
    (u.modify id f).slot = (v.modify id f).slot := by
  funext i
  rw [modify, modify, slot_set, slot_set, h]

theorem accumulate_congr (h : u.slot = v.slot) (ws : List (Identifier × F)) :
    (u.accumulate ws).slot = (v.accumulate ws).slot := by
  induction ws generalizing u v with
  | nil => exact h
  | cons w ws ih =>
    rw [accumulate, accumulate, List.foldl_cons, List.foldl_cons]
    refine ih ?_
    by_cases hw : w.1 = passive
    · rw [if_pos hw, if_pos hw, h]
    · rw [if_neg hw, if_neg hw]
      exact modify_congr h w.1 _

theorem scatter_congr (h : u.slot = v.slot) (ws : List (Identifier × F)) :
    (u.scatter ws).slot = (v.scatter ws).slot := by
  rw [slot_scatter, slot_scatter, h]

theorem taken_congr (h : u.slot = v.slot) (ids : List Identifier) : u.taken ids = v.taken ids := by
  induction ids generalizing u v with
  | nil => rfl
  | cons id ids ih => rw [taken, taken, h, ih (scatter_congr h _)]

theorem get_congr (h : u.slot = v.slot) (hu : u.slot passive = 0) : u.get = v.get := by
  funext id
  rw [get_eq_slot hu, get_eq_slot (h ▸ hu), h]

theorem slot_zeroAll (v : Slots F) : v.zeroAll.slot = fun _ => 0 := by
  funext id
  cases id with
  | zero => rfl
  | succ i =>
    simp only [zeroAll, fill, mapSlots, slot, List.getD_eq_getElem?_getD, List.getElem?_map]
    cases v.rest[i]? <;> rfl

end Slots

namespace Event

variable {e : Event F}

theorem tangent_congr (he : e.Regular) (h : u.slot = v.slot) (hu : u.slot passive = 0) :
    (e.tangent u).slot = (e.tangent v).slot ∧ (e.tangent u).slot passive = 0 := by
  have hget := Slots.get_congr h hu
  cases e with
  | elementary id args x =>
    rw [tangent, tangent, hget, slot_set_eq _ _ he.1, slot_set_eq _ _ he.1, h]
    exact ⟨rfl, by rw [overwrite_passive, ← h, hu]⟩
  | input id x => exact ⟨h, hu⟩
  | product c =>
    have hmatrix : c.tangentMatrix u = c.tangentMatrix v := by
      rw [Product.Call.tangentMatrix, Product.Call.tangentMatrix, hget]
    rw [tangent, tangent, Product.Call.tangent, Product.Call.tangent, hmatrix, Slots.slot_scatter,
      Slots.slot_scatter, h]
    exact ⟨rfl, by rw [overwrite_passive, ← h, hu]⟩

theorem distribute_congr {args : List (Identifier × F)} (hargs : ∀ a ∈ args, a.1 ≠ passive) (y : F)
    (h : u.slot = v.slot) (hu : u.slot passive = 0) :
    (args.foldl (fun v a => v.modify a.1 (· + a.2 * y)) u).slot =
        (args.foldl (fun v a => v.modify a.1 (· + a.2 * y)) v).slot ∧
      (args.foldl (fun v a => v.modify a.1 (· + a.2 * y)) u).slot passive = 0 := by
  induction args generalizing u v with
  | nil => exact ⟨h, hu⟩
  | cons a args ih =>
    refine ih (fun b hb => hargs b (List.mem_cons_of_mem _ hb)) (Slots.modify_congr h a.1 _) ?_
    exact (Slots.slot_set ..).trans ((if_neg (hargs a (by simp))).trans hu)

theorem adjoint_congr (he : e.Regular) (h : u.slot = v.slot) (hu : u.slot passive = 0) :
    (e.adjoint u).slot = (e.adjoint v).slot ∧ (e.adjoint u).slot passive = 0 := by
  have hget := Slots.get_congr h hu
  cases e with
  | elementary id args x =>
    rw [adjoint, adjoint, Statement.propagate, Statement.propagate, hget]
    dsimp only
    split
    · exact ⟨h, hu⟩
    · refine distribute_congr he.2 _ ?_ ?_
      · rw [slot_set_eq _ _ he.1, slot_set_eq _ _ he.1, h]
      · rw [Slots.slot_set, if_neg he.1, hu]
  | input id x => exact ⟨h, hu⟩
  | product c =>
    have hshare {u v : Slots F} (active : Bool) (ws : List (Identifier × F))
        (h : u.slot = v.slot) (hu : u.slot passive = 0) :
        (if active then u.accumulate ws else u).slot =
            (if active then v.accumulate ws else v).slot ∧
          (if active then u.accumulate ws else u).slot passive = 0 := by
      cases active with
      | false => exact ⟨h, hu⟩
      | true => exact ⟨Slots.accumulate_congr h ws, (u.slot_accumulate_passive ws).trans hu⟩
    have hzero : (u.scatter (c.results.map fun id => (id, 0))).slot passive = 0 := by
      rw [Slots.slot_scatter, overwrite_passive, hu]
    rw [adjoint, adjoint, Product.Call.adjoint, Product.Call.adjoint, Slots.taken_congr h]
    obtain ⟨hleft, hzero⟩ := hshare c.leftActive
      (c.leftShare (.ofList c.order c.rows c.cols (v.taken c.results)))
      (Slots.scatter_congr h (c.results.map fun id => (id, (0 : F)))) hzero
    exact hshare c.rightActive _ hleft hzero

end Event

namespace History

variable {es : History F}

theorem tangent_congr (hes : ∀ e ∈ es, e.Regular) (h : u.slot = v.slot) (hu : u.slot passive = 0) :
    (tangent es u).slot = (tangent es v).slot ∧ (tangent es u).slot passive = 0 := by
  induction es generalizing u v with
  | nil => exact ⟨h, hu⟩
  | cons e es ih =>
    obtain ⟨hslot, hzero⟩ := Event.tangent_congr (hes e (by simp)) h hu
    exact ih (fun e' he' => hes e' (List.mem_cons_of_mem _ he')) hslot hzero

theorem adjoint_congr (hes : ∀ e ∈ es, e.Regular) (h : u.slot = v.slot) (hu : u.slot passive = 0) :
    (adjoint es u).slot = (adjoint es v).slot ∧ (adjoint es u).slot passive = 0 := by
  induction es with
  | nil => exact ⟨h, hu⟩
  | cons e es ih =>
    obtain ⟨hslot, hzero⟩ := ih fun e' he' => hes e' (List.mem_cons_of_mem _ he')
    exact Event.adjoint_congr (hes e (by simp)) hslot hzero

end History

inductive Evaluation (F : Type)
  | seed (id : Identifier) (x : F)
  | clear
  | tangents
  | adjoints

namespace Tape

def evaluate (kernels : Kernels F) (t : Tape F) : Evaluation F → Except (Halt F) (Tape F)
  | .seed id x => .ok (t.setGradient id x)
  | .clear => .ok t.zeroAdjoints
  | .tangents => do
    let s ← t.tangentSweepAll kernels
    return s.tape
  | .adjoints => do
    let s ← t.adjointSweepAll kernels
    return s.tape

variable {r r' : Recording F} {σ : Ledger F n} {t t' : Tape F}

structure Twins (r r' : Recording F) (σ : Ledger F n) (t t' : Tape F) : Prop where
  carries : ∃ u, t.Carries r.tape u (primals σ.history)
  carries' : ∃ u, t'.Carries r'.tape u (primals σ.history)
  slot_eq : t.vectors.adjoints.slot = t'.vectors.adjoints.slot
  slot_passive : t.vectors.adjoints.slot passive = 0

namespace Twins

theorem gradient_eq (h : Twins r r' σ t t') (id : Identifier) : t.gradient id = t'.gradient id :=
  congrFun (Slots.get_congr h.slot_eq h.slot_passive) id

theorem of_carries (hu : t.Carries r.tape u (primals σ.history))
    (hv : t'.Carries r'.tape v (primals σ.history)) (hslot : u.slot = v.slot)
    (hzero : u.slot passive = 0) : Twins r r' σ t t' :=
  ⟨⟨u, hu⟩, ⟨v, hv⟩, by rw [hu.adjoints_eq, hv.adjoints_eq, hslot], by rw [hu.adjoints_eq, hzero]⟩

variable [LawfulCells F] {kernels : Kernels F} {token : Token}

theorem evaluate (h : Twins r r' σ t t') (hr : r.Tracks token σ) (hr' : r'.Tracks token σ)
    (hσ : σ.Sound) (hserved : ∀ e ∈ σ.history, e.Served kernels token) (a : Evaluation F) :
    Yields (t.evaluate kernels a) fun s => Yields (t'.evaluate kernels a) fun s' =>
      Twins r r' σ s s' := by
  obtain ⟨⟨u, hu⟩, ⟨u', hu'⟩, hslot, hzero⟩ := h
  rw [hu.adjoints_eq, hu'.adjoints_eq] at hslot
  rw [hu.adjoints_eq] at hzero
  cases a with
  | seed id x =>
    refine .ok (.ok ?_)
    by_cases hid : id = passive
    · simp only [setGradient, Vectors.setGradient, if_pos hid]
      exact of_carries hu hu' hslot hzero
    · simp only [setGradient, Vectors.setGradient, if_neg hid]
      rw [hu.adjoints_eq, hu'.adjoints_eq]
      refine of_carries (u := u.set id x) (v := u'.set id x)
        (hu.replace _ t.pool hu.lent_eq rfl rfl hu.primals_eq)
        (hu'.replace _ t'.pool hu'.lent_eq rfl rfl hu'.primals_eq) ?_ ?_
      · rw [slot_set_eq _ _ hid, slot_set_eq _ _ hid, hslot]
      · rw [Slots.slot_set, if_neg hid, hzero]
  | clear =>
    refine .ok (.ok (of_carries (hu.replace _ t.pool hu.lent_eq rfl rfl hu.primals_eq)
      (hu'.replace _ t'.pool hu'.lent_eq rfl rfl hu'.primals_eq) ?_ rfl))
    change t.vectors.adjoints.zeroAll.slot = t'.vectors.adjoints.zeroAll.slot
    rw [Slots.slot_zeroAll, Slots.slot_zeroAll]
  | tangents =>
    refine (hr.tangentSweepAll_yields hσ hserved hu).bind fun s hs => .ok ?_
    refine (hr'.tangentSweepAll_yields hσ hserved hu').bind fun s' hs' => .ok ?_
    obtain ⟨w, hw, hs⟩ := hs
    obtain ⟨w', hw', hs'⟩ := hs'
    obtain ⟨hsweep, hpassive⟩ := tangent_congr hσ.regular (u := w) (v := w')
      (by rw [hw, hw', hslot]) (by rw [hw, hzero])
    exact of_carries hs hs' hsweep hpassive
  | adjoints =>
    refine (hr.adjointSweepAll_yields hσ hserved hu).bind fun s hs => .ok ?_
    refine (hr'.adjointSweepAll_yields hσ hserved hu').bind fun s' hs' => .ok ?_
    obtain ⟨w, hw, hs⟩ := hs
    obtain ⟨w', hw', hs'⟩ := hs'
    obtain ⟨hsweep, hpassive⟩ := adjoint_congr hσ.regular (u := w) (v := w')
      (by rw [hw, hw', hslot]) (by rw [hw, hzero])
    exact of_carries hs hs' hsweep hpassive

end Twins

theorem Twins.evaluateAll [LawfulCells F] {kernels : Kernels F} {token : Token}
    (h : Twins r r' σ t t') (hr : r.Tracks token σ) (hr' : r'.Tracks token σ) (hσ : σ.Sound)
    (hserved : ∀ e ∈ σ.history, e.Served kernels token) (evaluations : List (Evaluation F)) :
    Yields (evaluations.foldlM (Tape.evaluate kernels) t) fun s =>
      Yields (evaluations.foldlM (Tape.evaluate kernels) t') fun s' => Twins r r' σ s s' := by
  induction evaluations generalizing t t' with
  | nil => exact .ok (.ok h)
  | cons a evaluations ih =>
    rw [List.foldlM_cons, List.foldlM_cons]
    refine (h.evaluate hr hr' hσ hserved a).bind fun s hs => ?_
    obtain ⟨s', hok, htwins⟩ := hs
    rw [hok]
    exact ih htwins

end Tape

theorem Catalogue.builtin_product (p : Precision) (script : Script p.Carrier) :
    (builtin p script).kernels ((builtin p script).token .product) = some Product.kernel := by
  cases p with
  | double => rfl
  | single => rfl

open Recording in
/-- A program gives its variables the same identifiers and values on a tape without primals and on
one with primals, and whatever is then seeded and swept, no derivative tells the tapes apart. No law
of arithmetic is needed: it only matters that values can be read back from their bytes. -/
theorem kinds_agree [LawfulCells F] (policy : Policy) (c : Catalogue F)
    (hk : c.kernels (c.token .product) = some Product.kernel) (values : Fin n → F)
    (program : List (Instruction F n)) :
    ∃ r r' : Recording F,
      (fresh policy .jacobian values).run c (program.map Instruction.operation) = .ok r ∧
      (fresh policy .primalValues values).run c (program.map Instruction.operation) = .ok r' ∧
      (∀ v : Fin n, r.get v = r'.get v) ∧
      ∀ evaluations : List (Evaluation F), ∃ t t' : Tape F,
        evaluations.foldlM (Tape.evaluate c.kernels) r.tape = .ok t ∧
        evaluations.foldlM (Tape.evaluate c.kernels) r'.tape = .ok t' ∧
        ∀ id, t.gradient id = t'.gradient id := by
  -- The ledger does not know the kind of the tape, so both recordings follow the same one.
  have hrun (kind : TapeKind) := fresh_run c policy kind values program fun i _ => i.served hk
  obtain ⟨σ, hσrun, hσ, hserved, r, hr, htracks⟩ := hrun .jacobian
  obtain ⟨σ', hσrun', -, -, r', hr', htracks'⟩ := hrun .primalValues
  obtain rfl : σ = σ' := Except.ok.inj (hσrun.symm.trans hσrun')
  refine ⟨r, r', hr, hr', fun v => ?_, fun evaluations => ?_⟩
  · rw [htracks.get_eq v, htracks'.get_eq v]
  · have htwins : Tape.Twins r r' σ r.tape r'.tape :=
      ⟨⟨_, htracks.withAdjoints_carries r.tape.vectors.adjoints⟩,
        ⟨_, htracks'.withAdjoints_carries r'.tape.vectors.adjoints⟩,
        by rw [htracks.follows.adjoints_eq, htracks'.follows.adjoints_eq],
        by rw [htracks.follows.adjoints_eq]; rfl⟩
    obtain ⟨t, ht, t', ht', h⟩ := htwins.evaluateAll htracks htracks' hσ hserved evaluations
    exact ⟨t, t', ht, ht', h.gradient_eq⟩

def squareRef : ProductRef 2 where
  order := .byRow
  rows := 1
  inner := 1
  cols := 1
  left := [0]
  right := [0]
  results := [1]
  length_left := rfl
  length_right := rfl
  length_results := rfl
  nodup := List.nodup_singleton 1

open Recording in
theorem kinds_agree_square :
    ∃ r r' : Recording Float,
      (fresh .reuse .jacobian ![3.0, 0.0]).run (.builtin .double .empty)
        [.input 0, .multiply .byRow 1 1 1 [0] [0] [1], .assign 0 0.5 [(.variable 1, 2.0)]] = .ok r ∧
      (fresh .reuse .primalValues ![3.0, 0.0]).run (.builtin .double .empty)
        [.input 0, .multiply .byRow 1 1 1 [0] [0] [1], .assign 0 0.5 [(.variable 1, 2.0)]] = .ok r' ∧
      (∀ v : Fin 2, r.get v = r'.get v) ∧
      ∀ evaluations : List (Evaluation Float), ∃ t t' : Tape Float,
        evaluations.foldlM (Tape.evaluate (Catalogue.builtin .double .empty).kernels) r.tape =
          .ok t ∧
        evaluations.foldlM (Tape.evaluate (Catalogue.builtin .double .empty).kernels) r'.tape =
          .ok t' ∧
        ∀ id, t.gradient id = t'.gradient id :=
  kinds_agree .reuse (.builtin .double .empty) (Catalogue.builtin_product .double .empty)
    ![3.0, 0.0] [.input 0, .multiply squareRef, .line (.assign 0 0.5 [(1, 2.0)])]

end Autodiff
