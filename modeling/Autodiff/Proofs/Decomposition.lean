import Autodiff.Proofs.Differentiation

namespace Autodiff

open History

variable {F : Type} [ExactScalar F] {n : Nat}

theorem Line.derive_assign_self (d : Fin n → Dual F) (v : Fin n) (value : F)
    (args : List (Fin n × F)) : (assign v value args).derive d v =
      if args.any fun a => (d a.1).active then
        ⟨value, true, (args.map fun a => a.2 * (d a.1).tangent).sum⟩
      else .constant value := by
  rw [derive]
  split
  · exact Function.update_self ..
  · exact Function.update_self ..

theorem Line.derive_assign_of_ne (d : Fin n → Dual F) {v w : Fin n} (value : F)
    (args : List (Fin n × F)) (hw : w ≠ v) : (assign v value args).derive d w = d w := by
  rw [derive]
  split
  · exact Function.update_of_ne hw ..
  · exact Function.update_of_ne hw ..

theorem derivative_assign_all (ls : List (Fin n × F × List (Fin n × F)))
    (hnodup : (ls.map Prod.fst).Nodup)
    (hargs : ∀ l ∈ ls, ∀ a ∈ l.2.2, a.1 ∉ ls.map Prod.fst) (d : Fin n → Dual F) :
    (∀ v, v ∉ ls.map Prod.fst →
      derivative d (ls.map fun l => .assign l.1 l.2.1 l.2.2) v = d v) ∧
    ∀ l ∈ ls, derivative d (ls.map fun l => .assign l.1 l.2.1 l.2.2) l.1 =
      (Line.assign l.1 l.2.1 l.2.2).derive d l.1 := by
  induction ls generalizing d with
  | nil => exact ⟨fun _ _ => rfl, nofun⟩
  | cons l ls ih =>
    obtain ⟨hl, hnodup⟩ := List.nodup_cons.mp hnodup
    have hrest := ih hnodup (fun l' hl' a ha hmem =>
      hargs l' (List.mem_cons_of_mem _ hl') a ha (List.mem_cons_of_mem _ hmem))
      ((Line.assign l.1 l.2.1 l.2.2).derive d)
    obtain ⟨hkept, hset⟩ := hrest
    constructor
    · intro v hv
      rw [List.map_cons, List.mem_cons, not_or] at hv
      exact (hkept v hv.2).trans (Line.derive_assign_of_ne d _ _ hv.1)
    · intro l' hl'
      rcases List.mem_cons.mp hl' with rfl | hmem
      · exact hkept l'.1 hl
      · -- None of the arguments has been assigned to, so it does not matter what came first.
        refine (hset l' hmem).trans ?_
        have hread : ∀ a ∈ l'.2.2, (Line.assign l.1 l.2.1 l.2.2).derive d a.1 = d a.1 := by
          intro a ha
          refine Line.derive_assign_of_ne d _ _ fun heq => hargs l' hl' a ha ?_
          rw [heq]
          exact List.mem_cons_self
        have hany : (l'.2.2.any fun a =>
            ((Line.assign l.1 l.2.1 l.2.2).derive d a.1).active) =
            l'.2.2.any fun a => (d a.1).active := by
          rw [Bool.eq_iff_iff, List.any_eq_true, List.any_eq_true]
          refine exists_congr fun a => and_congr_right fun ha => ?_
          rw [hread a ha]
        have hsum : (l'.2.2.map fun a => a.2 *
            ((Line.assign l.1 l.2.1 l.2.2).derive d a.1).tangent) =
            l'.2.2.map fun a => a.2 * (d a.1).tangent :=
          List.map_congr_left fun a ha => by rw [hread a ha]
        rw [Line.derive_assign_self, Line.derive_assign_self, hany, hsum]

namespace ProductRef

variable (p : ProductRef n) (values : Fin n → F)

def element (i j : Nat) : F :=
  ∑ l ∈ Finset.range p.inner,
    Matrix.ofList p.order p.rows p.inner (p.left.map values) i l *
      Matrix.ofList p.order p.inner p.cols (p.right.map values) l j

def arguments (i j : Nat) : List (Fin n × F) :=
  (List.range p.inner).flatMap fun l =>
    match p.left[p.order.offset p.rows p.inner i l]?,
      p.right[p.order.offset p.inner p.cols l j]? with
    | some v, some w => [(v, values w), (w, values v)]
    | _, _ => []

def parts : List (Fin n × F × List (Fin n × F)) :=
  (indexPairs p.rows p.cols).filterMap fun ij =>
    p.results[p.order.offset p.rows p.cols ij.1 ij.2]?.map fun v =>
      (v, p.element values ij.1 ij.2, p.arguments values ij.1 ij.2)

def decomposition : List (Line F n) :=
  (p.parts values).map fun l => .assign l.1 l.2.1 l.2.2

theorem map_fst_parts : (p.parts values).map Prod.fst = p.visited := by
  rw [parts, visited, List.filterMap_map, List.map_filterMap]
  refine List.filterMap_congr fun ij _ => ?_
  simp [Option.map_map, Function.comp_def]

variable {p values}

theorem mem_parts {i j : Nat} (hi : i < p.rows) (hj : j < p.cols) {v : Fin n}
    (hv : p.results[p.order.offset p.rows p.cols i j]? = some v) :
    (v, p.element values i j, p.arguments values i j) ∈ p.parts values :=
  List.mem_filterMap.mpr ⟨(i, j), mem_indexPairs.mpr ⟨hi, hj⟩, by rw [hv]; rfl⟩

omit [ExactScalar F] in
theorem mem_arguments {i j : Nat} {a : Fin n × F} (ha : a ∈ p.arguments values i j) :
    a.1 ∈ p.left ∨ a.1 ∈ p.right := by
  obtain ⟨l, -, ha⟩ := List.mem_flatMap.mp ha
  split at ha
  · rename_i v w hv hw
    rcases List.mem_cons.mp ha with rfl | ha
    · exact .inl (List.mem_of_getElem? hv)
    · rw [List.mem_singleton.mp ha]
      exact .inr (List.mem_of_getElem? hw)
  · cases ha

omit [ExactScalar F] in
theorem exists_factors {i j l : Nat} (hi : i < p.rows) (hj : j < p.cols) (hl : l < p.inner) :
    ∃ v w, p.left[p.order.offset p.rows p.inner i l]? = some v ∧
      p.right[p.order.offset p.inner p.cols l j]? = some w :=
  ⟨_, _, List.getElem?_eq_getElem (p.length_left ▸ p.order.offset_lt hi hl),
    List.getElem?_eq_getElem (p.length_right ▸ p.order.offset_lt hl hj)⟩

variable (p values) in
theorem derivative_decomposition (hdisjoint : ∀ v ∈ p.results, v ∉ p.left ∧ v ∉ p.right)
    (d : Fin n → Dual F) :
    (∀ v, v ∉ p.results → derivative d (p.decomposition values) v = d v) ∧
    ∀ i j v, i < p.rows → j < p.cols →
      p.results[p.order.offset p.rows p.cols i j]? = some v →
      derivative d (p.decomposition values) v =
        (Line.assign v (p.element values i j) (p.arguments values i j)).derive d v := by
  have hnodup : ((p.parts values).map Prod.fst).Nodup := by
    rw [map_fst_parts]
    exact p.nodup_visited
  have hargs : ∀ l ∈ p.parts values, ∀ a ∈ l.2.2, a.1 ∉ (p.parts values).map Prod.fst := by
    intro l hl a ha hmem
    rw [map_fst_parts, mem_visited] at hmem
    obtain ⟨ij, -, hij⟩ := List.mem_filterMap.mp hl
    obtain ⟨v, -, rfl⟩ := Option.map_eq_some_iff.mp hij
    rcases mem_arguments ha with hleft | hright
    · exact (hdisjoint _ hmem).1 hleft
    · exact (hdisjoint _ hmem).2 hright
  obtain ⟨hkept, hset⟩ := derivative_assign_all (p.parts values) hnodup hargs d
  constructor
  · intro v hv
    refine hkept v ?_
    rw [map_fst_parts, mem_visited]
    exact hv
  · intro i j v hi hj hv
    exact hset _ (mem_parts hi hj hv)

end ProductRef

namespace Ledger

variable {σ σ' : Ledger F n} {x : Identifier → F} {d : Fin n → Dual F} {p : ProductRef n}
  {i j : Nat}

theorem call_arguments (σ : Ledger F n) (p : ProductRef n) (ids : List Identifier)
    (hi : i < p.rows) (hj : j < p.cols) : (σ.call p ids).arguments i j =
      σ.arguments (p.arguments (fun v => (σ.vars v).value) i j) := by
  rw [Product.Call.arguments, ProductRef.arguments, arguments, List.map_flatMap]
  refine List.flatMap_congr fun l hl => ?_
  obtain ⟨v, w, hv, hw⟩ := ProductRef.exists_factors (p := p) hi hj (List.mem_range.mp hl)
  have hleft : (σ.call p ids).leftAt i l = σ.vars v := by
    simp [Product.Call.leftAt, call, List.getD_eq_getElem?_getD, hv]
  have hright : (σ.call p ids).rightAt l j = σ.vars w := by
    simp [Product.Call.rightAt, call, List.getD_eq_getElem?_getD, hw]
  rw [hleft, hright, hv, hw]
  rfl

theorem isActiveAt_eq (h : σ.Matches x d) (p : ProductRef n) (values : Fin n → F)
    (hi : i < p.rows) (hj : j < p.cols) :
    Product.isActiveAt p.order p.rows p.inner p.cols (p.left.map σ.vars) (p.right.map σ.vars) i j =
      (p.arguments values i j).any fun a => (d a.1).active := by
  rw [Product.isActiveAt, ProductRef.arguments, List.any_flatMap, Bool.eq_iff_iff, List.any_eq_true,
    List.any_eq_true]
  refine exists_congr fun l => and_congr_right fun hl => ?_
  obtain ⟨v, w, hv, hw⟩ := ProductRef.exists_factors (p := p) hi hj (List.mem_range.mp hl)
  simp [hv, hw, h.active_eq]

theorem call_values (σ : Ledger F n) (p : ProductRef n) (hi : i < p.rows) (hj : j < p.cols) :
    (σ.call p []).values[p.order.offset p.rows p.cols i j]? =
      some (p.element (fun v => (σ.vars v).value) i j) := by
  rw [Product.Call.values, show (σ.call p []).order = p.order from rfl,
    show (σ.call p []).rows = p.rows from rfl, show (σ.call p []).cols = p.cols from rfl,
    Matrix.getElem?_flatten _ _ hi hj, Matrix.mul_eq_sum, Product.Call.leftMatrix,
    Product.Call.rightMatrix, call, List.map_map, List.map_map]
  rfl

section Placed

variable (hplaced : (σ.setValues p.results (σ.call p []).values).Placed (σ.placings p) σ')
  {v : Fin n}
include hplaced

theorem Placed.value_of_place (hi : i < p.rows) (hj : j < p.cols)
    (hv : p.results[p.order.offset p.rows p.cols i j]? = some v) :
    (σ'.vars v).value = p.element (fun v => (σ.vars v).value) i j := by
  have hmap := congrArg (·[p.order.offset p.rows p.cols i j]?) hplaced.map_values
  simpa [List.getElem?_map, hv, call_values σ p hi hj] using hmap

theorem Placed.active_of_place (h : σ.Matches x d) (values : Fin n → F) (hi : i < p.rows)
    (hj : j < p.cols) (hv : p.results[p.order.offset p.rows p.cols i j]? = some v) :
    (σ'.vars v).isActive = (p.arguments values i j).any fun a => (d a.1).active := by
  cases hactive : σ.isActive p with
  | true =>
    rw [← isActiveAt_eq h p values hi hj]
    refine hplaced.active (nodup_placings σ p) (v, _) ?_
    rw [placings, if_pos hactive]
    refine List.mem_filterMap.mpr ⟨_, List.mem_map.mpr ⟨(i, j), mem_indexPairs.mpr ⟨hi, hj⟩, rfl⟩, ?_⟩
    rw [hv]
    rfl
  | false =>
    rw [hplaced.isActive_eq_false hactive (List.mem_of_getElem? hv)]
    have hpassive : ∀ a ∈ p.arguments values i j, (d a.1).active = false := by
      intro a ha
      rw [isActive, Bool.or_eq_false_iff, List.any_eq_false, List.any_eq_false] at hactive
      rw [← h.active_eq a.1]
      rcases ProductRef.mem_arguments ha with hleft | hright
      · exact Bool.eq_false_iff.mpr (hactive.1 _ (List.mem_map_of_mem hleft))
      · exact Bool.eq_false_iff.mpr (hactive.2 _ (List.mem_map_of_mem hright))
    rw [eq_comm, List.any_eq_false]
    intro a ha
    rw [hpassive a ha]
    exact Bool.false_ne_true

theorem Placed.block_tangent (X : Identifier → F) :
    (∀ v, v ∉ p.results → (σ.call p (p.results.map σ'.ids)).block.tangent X (σ'.ids v) =
      X (σ'.ids v)) ∧
    ∀ i j v, i < p.rows → j < p.cols → p.results[p.order.offset p.rows p.cols i j]? = some v →
      σ'.ids v ≠ passive → (σ.call p (p.results.map σ'.ids)).block.tangent X (σ'.ids v) =
        weigh (σ.arguments (p.arguments (fun v => (σ.vars v).value) i j)) X := by
  have hfits : (σ.call p (p.results.map σ'.ids)).Fits := call_fits σ p (by simp)
  have hfst : ((σ.call p (p.results.map σ'.ids)).block.map fun r => (r.1, weigh r.2 X)).map
      Prod.fst = p.results.map σ'.ids := by
    rw [List.map_map]
    exact Product.Call.map_fst_block _ hfits
  constructor
  · intro v hv
    by_cases hpassive : σ'.ids v = passive
    · rw [hpassive, Block.tangent_passive]
    · refine overwrite_of_notMem X ?_
      rw [hfst]
      exact hplaced.ids_notMem hv hpassive
  · intro i j v hi hj hv hne
    have hresult : (σ.call p (p.results.map σ'.ids)).resultAt i j = σ'.ids v := by
      simp [Product.Call.resultAt, call, List.getD_eq_getElem?_getD, hv]
    rw [← call_arguments σ p (p.results.map σ'.ids) hi hj]
    refine overwrite_of_mem X (by rw [hfst]; exact hplaced.distinct) ?_ hne
    refine List.mem_map.mpr ⟨(σ'.ids v, (σ.call p (p.results.map σ'.ids)).arguments i j), ?_, rfl⟩
    rw [← hresult]
    exact List.mem_of_getElem? (Matrix.getElem?_flatten _ p.order hi hj)

end Placed

theorem Matches.weigh_arguments (h : σ.Matches x d) (args : List (Fin n × F)) :
    weigh (σ.arguments args) (tangentMap σ.history x) =
      (args.map fun a => a.2 * (d a.1).tangent).sum := by
  rw [weigh, arguments, List.map_map]
  exact congrArg List.sum (List.map_congr_left fun a _ => congrArg _ (h.tangent_eq a.1))

theorem tangentMap_logCall {τ : Ledger F n} (h : τ.history = σ.history) (p : ProductRef n)
    (x : Identifier → F) : tangentMap (σ.logCall p τ).history x =
      if σ.isActive p then
        (σ.call p (p.results.map τ.ids)).block.tangent (tangentMap σ.history x)
      else tangentMap σ.history x := by
  rw [history_logCall, h]
  split
  · rw [tangentMap_append]
    rfl
  · rw [List.append_nil]

theorem Placed.decomposition_of_mem {τ : Ledger F n}
    (hplaced : (σ.setValues p.results (σ.call p []).values).Placed (σ.placings p) τ)
    (h : σ.Matches x d) (hdisjoint : ∀ v ∈ p.results, v ∉ p.left ∧ v ∉ p.right) {v : Fin n}
    (hv : v ∈ p.results) : ∃ i j, i < p.rows ∧ j < p.cols ∧
      p.results[p.order.offset p.rows p.cols i j]? = some v ∧
      derivative d (p.decomposition fun v => (σ.vars v).value) v =
        if (τ.vars v).isActive then ⟨(τ.vars v).value, true,
          weigh (σ.arguments (p.arguments (fun v => (σ.vars v).value) i j))
            (tangentMap σ.history x)⟩
        else .constant (τ.vars v).value := by
  obtain ⟨-, hset⟩ := p.derivative_decomposition (fun v => (σ.vars v).value) hdisjoint d
  obtain ⟨i, hi, j, hj, hij⟩ := p.exists_place hv
  refine ⟨i, j, hi, hj, hij, ?_⟩
  rw [hset i j v hi hj hij, Line.derive_assign_self, hplaced.value_of_place hi hj hij,
    hplaced.active_of_place h (fun v => (σ.vars v).value) hi hj hij, h.weigh_arguments]

theorem Matches.multiply (h : σ.Matches x d) (hσ : σ.Sound) (hx : x passive = 0)
    (hdisjoint : ∀ v ∈ p.results, v ∉ p.left ∧ v ∉ p.right) (hstep : σ.multiply p = .ok σ') :
    σ'.Matches x (derivative d (p.decomposition fun v => (σ.vars v).value)) := by
  obtain ⟨hkept, -⟩ := p.derivative_decomposition (fun v => (σ.vars v).value) hdisjoint d
  obtain ⟨σ₂, hok, τ, -, hplaced, rfl⟩ := multiply_yields hσ.guards p
  obtain rfl : σ' = _ := Except.ok.inj (hstep.symm.trans hok)
  have hmap := tangentMap_logCall hplaced.issuer_history.2.2 p x
  obtain ⟨hblock, helement⟩ := hplaced.block_tangent (tangentMap σ.history x)
  constructor
  · intro v
    rw [vars_logCall]
    by_cases hv : v ∈ p.results
    · obtain ⟨i, j, -, -, -, hd⟩ := hplaced.decomposition_of_mem h hdisjoint hv
      rw [hd]
      split <;> rfl
    · rw [hkept v hv, hplaced.vars_eq hv]
      exact h.value_eq v
  · intro v
    rw [vars_logCall]
    by_cases hv : v ∈ p.results
    · obtain ⟨i, j, -, -, -, hd⟩ := hplaced.decomposition_of_mem h hdisjoint hv
      rw [hd]
      split
      · assumption
      · rename_i hpassive
        exact Bool.eq_false_iff.mpr hpassive
    · rw [hkept v hv, hplaced.vars_eq hv]
      exact h.active_eq v
  · intro v
    rw [ids_logCall]
    by_cases hv : v ∈ p.results
    · obtain ⟨i, j, hi, hj, hij, hd⟩ := hplaced.decomposition_of_mem h hdisjoint hv
      rw [hd]
      split
      · rename_i hactive
        have hcall : σ.isActive p = true := by
          by_contra hno
          rw [hplaced.isActive_eq_false (Bool.eq_false_iff.mpr hno) hv] at hactive
          cases hactive
        rw [hmap, if_pos hcall]
        exact helement i j v hi hj hij (bne_iff_ne.mp hactive)
      · rename_i hpassive
        have hid : τ.ids v = passive := bne_eq_false_iff_eq.mp (Bool.eq_false_iff.mpr hpassive)
        rw [hid]
        exact (tangentMap_passive _ x).trans hx
    · have hold : τ.ids v = σ.ids v := congrArg Variable.identifier (hplaced.vars_eq hv)
      rw [hkept v hv, ← h.tangent_eq v, ← hold, hmap]
      split
      · exact hblock v hv
      · rfl

end Ledger

namespace Recording

structure Alike (kernels : Kernels F) (inputs : List (Fin n)) (registered r r' : Recording F) :
    Prop where
  value_eq : ∀ v : Fin n, (r.get v).value = (r'.get v).value
  active_eq : ∀ v : Fin n, (r.get v).isActive = (r'.get v).isActive
  tangents : ∀ x : Slots F, x.slot passive = 0 →
    ∃ s s', (r.tape.withAdjoints x).tangentSweepAll kernels = .ok s ∧
      (r'.tape.withAdjoints x).tangentSweepAll kernels = .ok s' ∧
      ∀ v : Fin n, (r.get v).isActive = true →
        s.tape.gradient (r.get v).identifier = s'.tape.gradient (r'.get v).identifier
  adjoints : ∀ y y' : Slots F,
    (∀ id, (∀ v : Fin n, (r.get v).isActive = true → (r.get v).identifier ≠ id) →
      y.slot id = 0) →
    (∀ id, (∀ v : Fin n, (r'.get v).isActive = true → (r'.get v).identifier ≠ id) →
      y'.slot id = 0) →
    (∀ v : Fin n, y.slot (r.get v).identifier = y'.slot (r'.get v).identifier) →
    ∃ s s', (r.tape.withAdjoints y).adjointSweepAll kernels = .ok s ∧
      (r'.tape.withAdjoints y').adjointSweepAll kernels = .ok s' ∧
      ∀ v ∈ inputs, s.tape.gradient (registered.get v).identifier =
        s'.tape.gradient (registered.get v).identifier

theorem Tracks.alike {kernels : Kernels F} {token : Token} {inputs : List (Fin n)}
    {registered r r' : Recording F} {σ σ' : Ledger F n} (h : r.Tracks token σ)
    (h' : r'.Tracks token σ') (hσ : σ.Sound) (hσ' : σ'.Sound)
    (hserved : ∀ e ∈ σ.history, e.Served kernels token)
    (hserved' : ∀ e ∈ σ'.history, e.Served kernels token)
    (hmatches : ∀ x : Identifier → F, x passive = 0 → ∃ d, σ.Matches x d ∧ σ'.Matches x d) :
    Alike kernels inputs registered r r' := by
  obtain ⟨d, hd, hd'⟩ := hmatches 0 rfl
  constructor
  · intro v
    rw [h.get_eq v, h'.get_eq v, hd.value_eq v, hd'.value_eq v]
  · intro v
    rw [h.get_eq v, h'.get_eq v, hd.active_eq v, hd'.active_eq v]
  · intro x hx
    obtain ⟨d, hd, hd'⟩ := hmatches x.slot hx
    obtain ⟨s, hs, htangents⟩ := h.tangents_yields hσ hserved hx hd
    obtain ⟨s', hs', htangents'⟩ := h'.tangents_yields hσ' hserved' hx hd'
    exact ⟨s, s', hs, hs', fun v _ => (htangents v).trans (htangents' v).symm⟩
  · intro y y' hy hy' hyy'
    obtain ⟨s, hs, hzero, hadjoints⟩ := h.adjoints_yields hσ hserved hy
    obtain ⟨s', hs', hzero', hadjoints'⟩ := h'.adjoints_yields hσ' hserved' hy'
    refine ⟨s, s', hs, hs', fun v _ => ?_⟩
    by_cases hid : (registered.get v).identifier = passive
    · rw [hid, hzero, hzero']
    · -- Both adjoints are sums over the same tangents.
      obtain ⟨d, hd, hd'⟩ := hmatches (Pi.single (registered.get v).identifier 1)
        (Pi.single_eq_of_ne (Ne.symm hid) 1)
      rw [hadjoints _ hid, hadjoints' _ hid]
      refine Finset.sum_congr rfl fun w _ => ?_
      rw [hyy' w, hd.tangent_eq w, hd'.tangent_eq w]

theorem multiply_alike_decomposition (policy : Policy) (kind : TapeKind) (c : Catalogue F)
    (hk : c.kernels (c.token .product) = some Product.kernel) (values : Fin n → F)
    (inputs : List (Fin n)) (before after : List (Line F n)) (p : ProductRef n)
    (hdisjoint : ∀ v ∈ p.results, v ∉ p.left ∧ v ∉ p.right) :
    ∃ registered called whole parts : Recording F,
      (fresh policy kind values).run c (inputs.map fun v => .input v.val) = .ok registered ∧
      registered.run c (before.map Line.operation) = .ok called ∧
      called.run c ((Instruction.multiply (F := F) p).operation :: after.map Line.operation) =
        .ok whole ∧
      called.run c ((p.decomposition (fun v => (called.get v).value) ++ after).map
        Line.operation) = .ok parts ∧
      Alike c.kernels inputs registered whole parts := by
  obtain ⟨σ₀, hrun₀, hσ₀, hserved₀, registered, hregistered, htracks₀⟩ :=
    fresh_run c policy kind values (inputs.map .input) fun i _ => i.served hk
  obtain ⟨σ₁, hrun₁, hσ₁, hserved₁, called, hcalled, htracks₁⟩ :=
    htracks₀.run hσ₀ hserved₀ (before.map .line) fun i _ => i.served hk
  obtain ⟨σ, hrun, hσ, hserved, whole, hwhole, htracks⟩ :=
    htracks₁.run hσ₁ hserved₁ (.multiply p :: after.map .line) fun i _ => i.served hk
  obtain ⟨σ', hrun', hσ', hserved', parts, hparts, htracks'⟩ :=
    htracks₁.run hσ₁ hserved₁
      ((p.decomposition (fun v => (σ₁.vars v).value) ++ after).map .line) fun i _ => i.served hk
  have hvalues : (fun v : Fin n => (called.get v).value) = fun v => (σ₁.vars v).value :=
    funext fun v => by rw [htracks₁.get_eq v]
  rw [List.map_map] at hregistered hcalled hparts
  rw [List.map_cons, List.map_map] at hwhole
  refine ⟨registered, called, whole, parts, hregistered, hcalled, hwhole, hvalues ▸ hparts,
    htracks.alike htracks' hσ hσ' hserved hserved' fun x hx => ?_⟩
  obtain ⟨hinputs, -⟩ := Ledger.registered_of_run hrun₀
  have hcall := (hinputs.toMatches hx).lines hσ₀ hx hrun₁
  obtain ⟨τ, hstep, hrun⟩ := exists_of_bind_eq_ok hrun
  obtain ⟨τ', hok, hτ, -⟩ := hσ₁.step (.multiply p)
  obtain rfl : τ = τ' := Except.ok.inj (hstep.symm.trans hok)
  refine ⟨_, (hcall.multiply hσ₁ hx hdisjoint hstep).lines hτ hx hrun, ?_⟩
  have hdecomposed := hcall.lines hσ₁ hx hrun'
  rw [derivative, List.foldl_append] at hdecomposed
  exact hdecomposed

def dotProduct : ProductRef 4 where
  order := .byRow
  rows := 1
  inner := 2
  cols := 1
  left := [0, 1]
  right := [1, 2]
  results := [3]
  length_left := rfl
  length_right := rfl
  length_results := rfl
  nodup := List.nodup_singleton 3

def productOnly : Catalogue Int := ⟨fun _ => some Product.kernel, fun _ => ⟨0⟩⟩

theorem multiply_alike_dotProduct :
    ∃ registered called whole parts : Recording Int,
      (fresh .reuse .primalValues ![2, 3, 5, 0]).run productOnly [.input 0, .input 1] =
        .ok registered ∧
      registered.run productOnly [.assign 2 4 [(.variable 0, 2)]] = .ok called ∧
      called.run productOnly [.multiply .byRow 1 2 1 [0, 1] [1, 2] [3], .output 3] = .ok whole ∧
      called.run productOnly ((dotProduct.decomposition (fun v => (called.get v).value) ++
        [Line.output 3]).map Line.operation) = .ok parts ∧
      Alike productOnly.kernels ([0, 1] : List (Fin 4)) registered whole parts :=
  multiply_alike_decomposition .reuse .primalValues productOnly rfl ![2, 3, 5, 0] [0, 1]
    [.assign 2 4 [(0, 2)]] [.output 3] dotProduct (by decide)

end Recording

end Autodiff
