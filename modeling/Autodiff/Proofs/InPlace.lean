import Autodiff.Proofs.Decomposition
import Autodiff.Proofs.Passages

namespace Autodiff

open History

variable {F : Type} {n : Nat}

namespace ProductRef

variable [Scalar F]

def asCalled (p : ProductRef n) (r r' : Recording F) : Product.Call F :=
  p.call (fun v => r.get v) (p.results.map fun v : Fin n => (r'.get v).identifier)

theorem exists_resultAt_asCalled (p : ProductRef n) (r r' : Recording F) {i j : Nat}
    (hi : i < p.rows) (hj : j < p.cols) :
    ∃ v : Fin n, p.results[p.order.offset p.rows p.cols i j]? = some v ∧
      (p.asCalled r r').resultAt i j = (r'.get v).identifier := by
  have hplace : p.order.offset p.rows p.cols i j < p.results.length :=
    p.length_results ▸ p.order.offset_lt hi hj
  refine ⟨_, List.getElem?_eq_getElem hplace, (List.getD_eq_getElem _ _ ?_).trans ?_⟩
  · exact hplace.trans_eq (List.length_map _).symm
  · exact List.getElem_map ..

end ProductRef

variable [ExactScalar F]

namespace Product.Call

variable {c : Call F} {x y : Identifier → F}

/-- Every active result gets its element of `A' · B + A · B'`, computed from what the slots held. -/
structure SetsTangents (c : Call F) (x y : Identifier → F) : Prop where
  passive_eq : x passive = 0 ∧ y passive = 0
  result_eq : ∀ i < c.rows, ∀ j < c.cols, c.resultAt i j ≠ passive →
    y (c.resultAt i j) = ∑ l ∈ Finset.range c.inner,
      (x (c.leftAt i l).identifier * (c.rightAt l j).value +
        (c.leftAt i l).value * x (c.rightAt l j).identifier)
  kept : ∀ id, id ∉ c.results → y id = x id

/-- The slots of the active results are cleared. Then the elements of the factors are handed
`R' · Bᵀ` and `Aᵀ · R'`, where `R'` is what the results held; repeated identifiers get the sum. -/
structure HandsBack (c : Call F) (x y : Identifier → F) : Prop where
  passive_eq : x passive = 0 ∧ y passive = 0
  slot_eq : ∀ id, id ≠ passive → y id = (if id ∈ c.results then 0 else x id) +
    (∑ i ∈ Finset.range c.rows, ∑ l ∈ Finset.range c.inner,
        (if (c.leftAt i l).identifier = id then
          ∑ j ∈ Finset.range c.cols, x (c.resultAt i j) * (c.rightAt l j).value else 0) +
      ∑ l ∈ Finset.range c.inner, ∑ j ∈ Finset.range c.cols,
        if (c.rightAt l j).identifier = id then
          ∑ i ∈ Finset.range c.rows, (c.leftAt i l).value * x (c.resultAt i j) else 0)

theorem setsTangents (hc : c.Fits) (hd : DistinctActive c.results) {v : Slots F}
    (hv : v.slot passive = 0) : c.SetsTangents v.slot (c.tangent v).slot := by
  rw [c.slot_tangent hc hv, Block.tangent]
  have hids : (c.block.map fun r => (r.1, weigh r.2 v.slot)).map Prod.fst = c.results := by
    rw [List.map_map]
    exact c.map_fst_block hc
  refine ⟨⟨hv, (overwrite_passive ..).trans hv⟩, fun i hi j hj hne => ?_, fun id hid => ?_⟩
  · have hmem : (c.resultAt i j, c.arguments i j) ∈ c.block :=
      List.mem_of_getElem? (Matrix.getElem?_flatten
        (fun i j => (c.resultAt i j, c.arguments i j)) c.order hi hj)
    have hwrite : (c.resultAt i j, weigh (c.arguments i j) v.slot) ∈
        c.block.map fun r => (r.1, weigh r.2 v.slot) := List.mem_map.mpr ⟨_, hmem, rfl⟩
    rw [overwrite_of_mem v.slot (hids ▸ hd) hwrite hne, c.weigh_arguments]
    exact Finset.sum_congr rfl fun l _ => by rw [mul_comm (c.rightAt l j).value]
  · exact overwrite_of_notMem v.slot (hids ▸ hid)

theorem handsBack (hc : c.Fits) (hd : DistinctActive c.results) {v : Slots F}
    (hv : v.slot passive = 0) : c.HandsBack v.slot (c.adjoint v).slot := by
  rw [c.slot_adjoint hc hd hv]
  have hids : (c.block.map fun r => (r.1, (0 : F))).map Prod.fst = c.results := by
    rw [List.map_map]
    exact c.map_fst_block hc
  refine ⟨⟨hv, (if_pos rfl).trans hv⟩, fun id hid => ?_⟩
  rw [Block.adjoint, if_neg hid, share_block]
  congr 1
  split
  case isTrue hmem =>
    rw [← hids] at hmem
    obtain ⟨⟨w, z⟩, hw, rfl⟩ := List.mem_map.mp hmem
    obtain ⟨row, hrow, heq⟩ := List.mem_map.mp hw
    obtain ⟨rfl, rfl⟩ := Prod.mk.inj heq
    exact overwrite_of_mem v.slot (hids ▸ hd) hw hid
  case isFalse hnot => exact overwrite_of_notMem v.slot (hids ▸ hnot)

end Product.Call

namespace Recording

/-- A product whose results hold identifiers of its factors is recorded, and every later sweep over
the whole tape treats it as the product of the values that the call saw, also where its results have
overwritten the primals of these values. -/
theorem multiply_in_place (c : Catalogue F)
    (hk : c.kernels (c.token .product) = some Product.kernel) {policy : Policy} {kind : TapeKind}
    {values : Fin n → F} {r₀ : Recording F}
    (hr₀ : (fresh policy kind values).Proceeds c
      (fun r (x : Transfer F n) => x.Orderly r ∧ (r.tape.hasPrimals = true → x.InStep r)) r₀)
    (p : ProductRef n) (horderly : (Transfer.instruct (.multiply p)).Orderly r₀)
    (hstep : r₀.tape.hasPrimals = true → (Transfer.instruct (.multiply p)).InStep r₀) :
    Yields ((Transfer.instruct (.multiply p)).apply c r₀) fun r₁ =>
      (p.isActive (fun v => r₀.get v) = false → r₁.tape.log = r₀.tape.log) ∧
      (p.isActive (fun v => r₀.get v) = true →
        (∀ i < p.rows, ∀ j < p.cols, (p.asCalled r₀ r₁).resultAt i j ≠ passive ↔
          Product.isActiveAt p.order p.rows p.inner p.cols (p.asCalled r₀ r₁).left
            (p.asCalled r₀ r₁).right i j = true) ∧
        ∀ r, r₁.Proceeds c (fun r (x : Transfer F n) => x.Orderly r) r →
          ∃ st later, r₁.tape.log = r₀.tape.log ++ [st] ∧ r.tape.log = r₁.tape.log ++ later ∧
            ∀ t, r.tape.Swept c.kernels t →
              (∃ s s', t.PassesForward c.kernels r₀.tape.log st later s s' ∧
                (p.asCalled r₀ r₁).SetsTangents s.tape.vectors.adjoints.slot
                  s'.tape.vectors.adjoints.slot) ∧
              ∃ s s', t.PassesBack c.kernels r₀.tape.log st later s s' ∧
                (p.asCalled r₀ r₁).HandsBack s.tape.vectors.adjoints.slot
                  s'.tape.vectors.adjoints.slot) := by
  obtain ⟨f, es₀, h₀, hknown⟩ := Recounts.exists_known hk hr₀
  obtain rfl : f = fun v : Fin n => r₀.get v := funext fun v => (get_of_vars h₀.vars_eq v).symm
  obtain ⟨r₁, hr₁, g, hleaves, h₁⟩ := h₀.multiply hk p horderly
  obtain rfl : g = fun v : Fin n => r₁.get v := funext fun v => (get_of_vars h₁.vars_eq v).symm
  have hgrows := horderly.grows hr₁
  have hevents : p.events (fun v => r₀.get v) (fun v => r₁.get v) =
      if p.isActive (fun v => r₀.get v) then [Event.product (p.asCalled r₀ r₁)] else [] := rfl
  refine ⟨r₁, hr₁, fun hactive => ?_, fun hactive => ⟨fun i hi j hj => ?_, fun r hr => ?_⟩⟩
  · rw [hevents, hactive, if_neg Bool.false_ne_true, List.append_nil] at h₁
    have hlogged := h₁.follows.logged
    rw [hgrows.traits_eq] at hlogged
    exact hlogged.eq_of_prefix h₀.follows.logged List.prefix_rfl hgrows.log
  · obtain ⟨v, hv, hresult⟩ := p.exists_resultAt_asCalled r₀ r₁ hi hj
    have hsettled := hleaves.settled i hi j hj v hv
    rw [hactive, Bool.true_and] at hsettled
    rw [hresult, ← bne_iff_ne]
    exact Bool.eq_iff_iff.mp hsettled
  · rw [hevents, hactive, if_pos rfl] at h₁
    obtain ⟨g, added, h, hgrows'⟩ := h₁.proceeds hk hr
    obtain ⟨earlier, st, later, hlocates⟩ := h.exists_locates
    obtain ⟨rfl, hlog⟩ :=
      hlocates.appended h₀.follows.logged h₁.follows.logged hgrows hgrows'
    have hknown' (hprimals : r.tape.hasPrimals = true) :
        Known (es₀ ++ [.product (p.asCalled r₀ r₁)]) := by
      rw [hgrows'.hasPrimals_eq, hgrows.hasPrimals_eq] at hprimals
      refine (hknown hprimals).append fun call hcall => ?_
      cases hcall
      exact h₀.holds_factors hprimals (hstep hprimals)
    obtain ⟨hfits, hdistinct⟩ : (Event.product (p.asCalled r₀ r₁)).Regular :=
      h₁.regular _ (by simp)
    refine ⟨st, later, hlog, ?_, fun t ht => ?_⟩
    · rw [hlog, List.append_assoc]
      exact hlocates.log_eq
    obtain ⟨q, hremembers⟩ := h.exists_remembers hknown' hk hlocates ht
    obtain ⟨⟨s, s', hforward, hopen, heq⟩, -⟩ := h.passesForward hknown' hremembers hk hlocates
    obtain ⟨u, u', hback, hopen', heq'⟩ := h.passesBack hknown' hremembers hk hlocates
    exact ⟨⟨s, s', hforward, heq ▸ Product.Call.setsTangents hfits hdistinct hopen⟩,
      u, u', hback, heq' ▸ Product.Call.handsBack hfits hdistinct hopen'⟩

def ofPair (u v w : Fin n) : ProductRef n where
  order := .byRow
  rows := 1
  inner := 1
  cols := 1
  left := [u]
  right := [v]
  results := [w]
  length_left := rfl
  length_right := rfl
  length_results := rfl
  nodup := List.nodup_singleton w

theorem multiply_in_place_square :
    ∃ r₀ r₁ r : Recording Int,
      (fresh .reuse .primalValues ![3, 0, 0]).Proceeds productOnly
        (fun r (x : Transfer Int 3) => x.Orderly r ∧ (r.tape.hasPrimals = true → x.InStep r)) r₀ ∧
      (Transfer.instruct (.multiply (ofPair 0 0 1 : ProductRef 3))).apply productOnly r₀ = .ok r₁ ∧
      r₁.Proceeds productOnly (fun r (x : Transfer Int 3) => x.Orderly r) r ∧
      ((ofPair 0 0 1 : ProductRef 3).asCalled r₀ r₁).resultAt 0 0 = (r₀.get 0).identifier ∧
      r.tape.log.length = 3 ∧
      ∃ st later, r₁.tape.log = r₀.tape.log ++ [st] ∧ r.tape.log = r₁.tape.log ++ later ∧
        ∀ t, r.tape.Swept productOnly.kernels t →
          (∃ s s', t.PassesForward productOnly.kernels r₀.tape.log st later s s' ∧
            ((ofPair 0 0 1 : ProductRef 3).asCalled r₀ r₁).SetsTangents s.tape.vectors.adjoints.slot
              s'.tape.vectors.adjoints.slot) ∧
          ∃ s s', t.PassesBack productOnly.kernels r₀.tape.log st later s s' ∧
            ((ofPair 0 0 1 : ProductRef 3).asCalled r₀ r₁).HandsBack s.tape.vectors.adjoints.slot
              s'.tape.vectors.adjoints.slot := by
  have registered : (fresh .reuse .primalValues ![(3 : Int), 0, 0]).Proceeds productOnly
      (fun r (x : Transfer Int 3) => x.Orderly r ∧ (r.tape.hasPrimals = true → x.InStep r)) _ :=
    .tail .refl ⟨.instruct (.input 0), ⟨trivial, fun _ => trivial⟩, rfl⟩
  have copied := registered.tail ⟨.copy 0 1, ⟨trivial, fun _ => trivial⟩, rfl⟩
  obtain ⟨r₁, hr₁, -, hrecorded⟩ := multiply_in_place productOnly rfl copied (ofPair 0 0 1)
    ⟨List.pairwise_singleton _ _, by decide, by decide⟩ fun _ =>
      List.forall_mem_cons.mpr ⟨fun _ => rfl, List.forall_mem_singleton.mpr fun _ => rfl⟩
  cases hr₁
  exact ⟨_, _, _, copied, rfl,
    .tail .refl ⟨.instruct (.line (.assign 2 18 [(1, 2)])), trivial, rfl⟩, rfl, rfl,
    (hrecorded rfl).2 _ (.tail .refl ⟨.instruct (.line (.assign 2 18 [(1, 2)])), trivial, rfl⟩)⟩

def ofRow : ProductRef 5 where
  order := .byRow
  rows := 1
  inner := 1
  cols := 2
  left := [3]
  right := [0, 4]
  results := [1, 2]
  length_left := rfl
  length_right := rfl
  length_results := rfl
  nodup := by decide

def Misses (r₀ : Recording F) (c : Catalogue F) (p : ProductRef n) (x : Slots F) : Prop :=
  ∃ r₁ st s s', (Transfer.instruct (.multiply p)).apply c r₀ = .ok r₁ ∧
    r₁.tape.log = r₀.tape.log ++ [st] ∧
    (r₁.tape.withAdjoints x).PassesForward c.kernels r₀.tape.log st [] s s' ∧
    ¬ (p.asCalled r₀ r₁).SetsTangents s.tape.vectors.adjoints.slot s'.tape.vectors.adjoints.slot

/-- A factor that was never recorded loses its primal to the product, so a forward sweep weighs with
the product. After an identifier was given back three times, two results share it. A product that was
not in step is computed anew in a forward sweep, with another value for the product after it. -/
theorem not_multiply_in_place_unrecorded :
    (∃ r₀ : Recording Int, (fresh .reuse .primalValues ![3, 0]).Proceeds productOnly
        (fun r (x : Transfer Int 2) => x.InStep r) r₀ ∧
      (Transfer.instruct (.multiply (ofPair 0 0 1 : ProductRef 2))).Orderly r₀ ∧
      (Transfer.instruct (.multiply (ofPair 0 0 1 : ProductRef 2))).InStep r₀ ∧
      r₀.Misses productOnly (ofPair 0 0 1 : ProductRef 2) ⟨0, [1]⟩) ∧
    (∃ r₀ : Recording Int, (fresh .reuse .jacobian ![2, 0, 0, 5, 7]).Proceeds productOnly
        (fun r (x : Transfer Int 5) => x.Orderly r) r₀ ∧
      DistinctActive (ofRow.results.map fun v : Fin 5 => (r₀.get v).identifier) ∧
      (∀ v ∈ ofRow.results, (r₀.get v).identifier ∉ r₀.tape.issuer.unused) ∧
      r₀.Misses productOnly ofRow ⟨0, [1]⟩) ∧
    ∃ r₀ : Recording Int, (fresh .reuse .primalValues ![2, 0, 0, 0]).Proceeds productOnly
        (fun r (x : Transfer Int 4) => x.Orderly r) r₀ ∧
      (Transfer.instruct (.multiply (ofPair 2 2 3 : ProductRef 4))).Orderly r₀ ∧
      (Transfer.instruct (.multiply (ofPair 2 2 3 : ProductRef 4))).InStep r₀ ∧
      r₀.Misses productOnly (ofPair 2 2 3 : ProductRef 4) ⟨0, [1]⟩ := by
  refine ⟨?unrecorded, ?shared, ?stale⟩
  case unrecorded =>
    have issued : (fresh .reuse .primalValues ![(3 : Int), 0]).Proceeds productOnly
        (fun r (x : Transfer Int 2) => x.InStep r) _ := .tail .refl ⟨.externalOutput 0, trivial, rfl⟩
    have copied := issued.tail ⟨.copy 0 1, trivial, rfl⟩
    refine ⟨_, copied, ⟨List.pairwise_singleton _ _, by decide, by decide⟩,
      List.forall_mem_cons.mpr ⟨fun _ => rfl, List.forall_mem_singleton.mpr fun _ => rfl⟩,
      _, _, _, _, rfl, rfl, ⟨rfl, rfl, _, rfl, Tape.tangentSweepAll_eq _ (List.cons_ne_nil _ _)⟩,
      fun h => ?_⟩
    have hresult : (18 : Int) = 6 :=
      (h.result_eq 0 Nat.one_pos 0 Nat.one_pos (by decide)).trans (Finset.sum_range_one _)
    cases hresult
  case shared =>
    have registered : (fresh .reuse .jacobian ![(2 : Int), 0, 0, 5, 7]).Proceeds productOnly
        (fun r (x : Transfer Int 5) => x.Orderly r) _ :=
      .tail .refl ⟨.instruct (.input 0), trivial, rfl⟩
    have copied := (registered.tail ⟨.copy 0 1, trivial, rfl⟩).tail ⟨.copy 0 2, trivial, rfl⟩
    have first := copied.tail ⟨.instruct (.line (.release 0)), trivial, rfl⟩
    have second := first.tail ⟨.instruct (.line (.release 1)), trivial, rfl⟩
    have third := second.tail ⟨.instruct (.line (.release 2)), trivial, rfl⟩
    have again := third.tail ⟨.instruct (.input 3), trivial, rfl⟩
    refine ⟨_, again, .cons (fun _ _ hne => absurd rfl hne) (List.pairwise_singleton _ _), by decide,
      _, _, _, _, rfl, rfl, ⟨rfl, rfl, _, rfl, Tape.tangentSweepAll_eq _ (List.cons_ne_nil _ _)⟩,
      fun h => ?_⟩
    have hresult : (7 : Int) = 2 :=
      (h.result_eq 0 Nat.one_pos 0 Nat.two_pos (by decide)).trans (Finset.sum_range_one _)
    cases hresult
  case stale =>
    have registered : (fresh .reuse .primalValues ![(2 : Int), 0, 0, 0]).Proceeds productOnly
        (fun r (x : Transfer Int 4) => x.Orderly r) _ :=
      .tail .refl ⟨.instruct (.input 0), trivial, rfl⟩
    have copied := registered.tail ⟨.copy 0 1, trivial, rfl⟩
    have overwritten := copied.tail ⟨.instruct (.line (.assign 0 5 [(0, 1)])), trivial, rfl⟩
    have squared := overwritten.tail ⟨.instruct (.multiply (ofPair 1 1 2)),
      ⟨List.pairwise_singleton _ _, by decide, by decide⟩, rfl⟩
    have again := squared.tail ⟨.copy 2 3, trivial, rfl⟩
    refine ⟨_, again, ⟨List.pairwise_singleton _ _, by decide, by decide⟩,
      List.forall_mem_cons.mpr ⟨fun _ => rfl, List.forall_mem_singleton.mpr fun _ => rfl⟩,
      _, _, _, _, rfl, rfl, ⟨rfl, rfl, _, rfl, Tape.tangentSweepAll_eq _ (List.cons_ne_nil _ _)⟩,
      fun h => ?_⟩
    have hresult : (500 : Int) = 80 :=
      (h.result_eq 0 Nat.one_pos 0 Nat.one_pos (by decide)).trans (Finset.sum_range_one _)
    cases hresult

end Recording

end Autodiff
