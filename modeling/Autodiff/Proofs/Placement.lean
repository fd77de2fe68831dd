import Autodiff.Proofs.Ledger

namespace Autodiff

namespace ProductRef

variable {n : Nat}

def visited (p : ProductRef n) : List (Fin n) :=
  ((indexPairs p.rows p.cols).map fun ij =>
    p.order.offset p.rows p.cols ij.1 ij.2).filterMap (p.results[·]?)

theorem nodup_visited (p : ProductRef n) : p.visited.Nodup := by
  refine (p.order.nodup_offsets p.rows p.cols).filterMap fun k l v hk hl => ?_
  obtain ⟨hk', hk⟩ := List.getElem?_eq_some_iff.mp hk
  obtain ⟨hl', hl⟩ := List.getElem?_eq_some_iff.mp hl
  exact (p.nodup.getElem_inj_iff).mp (hk.trans hl.symm)

theorem exists_place (p : ProductRef n) {v : Fin n} (hv : v ∈ p.results) :
    ∃ i < p.rows, ∃ j < p.cols, p.results[p.order.offset p.rows p.cols i j]? = some v := by
  obtain ⟨k, hk, rfl⟩ := List.mem_iff_getElem.mp hv
  obtain ⟨i, hi, j, hj, hij⟩ := p.order.exists_offset (p.length_results ▸ hk)
  exact ⟨i, hi, j, hj, by rw [hij, List.getElem?_eq_getElem hk]⟩

theorem mem_visited (p : ProductRef n) {v : Fin n} : v ∈ p.visited ↔ v ∈ p.results := by
  rw [visited, List.mem_filterMap]
  constructor
  · rintro ⟨k, -, hk⟩
    exact List.mem_of_getElem? hk
  · intro hv
    obtain ⟨i, hi, j, hj, hij⟩ := p.exists_place hv
    exact ⟨_, List.mem_map.mpr ⟨(i, j), mem_indexPairs.mpr ⟨hi, hj⟩, rfl⟩, hij⟩

end ProductRef

namespace Ledger

variable {F : Type} {n : Nat} {σ σ' σ'' : Ledger F n}

section SetValues

variable {vs : List (Fin n)} {xs : List F}

theorem setValues_cons (σ : Ledger F n) (v : Fin n) (x : F) :
    σ.setValues (v :: vs) (x :: xs) = (σ.put σ.issuer v ⟨x, σ.ids v⟩).setValues vs xs := rfl

theorem setValues_ids (σ : Ledger F n) (vs : List (Fin n)) (xs : List F) :
    (σ.setValues vs xs).ids = σ.ids ∧ (σ.setValues vs xs).issuer = σ.issuer ∧
      (σ.setValues vs xs).history = σ.history := by
  induction vs generalizing σ xs with
  | nil => exact ⟨rfl, rfl, rfl⟩
  | cons v vs ih =>
    cases xs with
    | nil => exact ⟨rfl, rfl, rfl⟩
    | cons x xs =>
      rw [setValues_cons]
      obtain ⟨hids, hissuer, hhistory⟩ := ih (σ.put σ.issuer v ⟨x, σ.ids v⟩) xs
      refine ⟨?_, hissuer, hhistory⟩
      rw [hids, ids_put, Function.update_eq_self]

theorem guards_setValues (h : σ.issuer.Guards σ.ids) {vs : List (Fin n)} {xs : List F} :
    (σ.setValues vs xs).issuer.Guards (σ.setValues vs xs).ids := by
  obtain ⟨hids, hissuer, -⟩ := setValues_ids σ vs xs
  rw [hids, hissuer]
  exact h

theorem setValues_vars_of_notMem {v : Fin n} (h : v ∉ vs) :
    (σ.setValues vs xs).vars v = σ.vars v := by
  induction vs generalizing σ xs with
  | nil => rfl
  | cons w vs ih =>
    rw [List.mem_cons, not_or] at h
    cases xs with
    | nil => rfl
    | cons x xs =>
      rw [setValues_cons, ih h.2]
      exact Function.update_of_ne h.1 ..

theorem map_setValues_vars (h : vs.Nodup) (hlen : vs.length = xs.length) :
    vs.map (σ.setValues vs xs).vars = Product.withValues (vs.map σ.vars) xs := by
  induction vs generalizing σ xs with
  | nil => rfl
  | cons v vs ih =>
    obtain ⟨hv, hvs⟩ := List.nodup_cons.mp h
    cases xs with
    | nil => simp at hlen
    | cons x xs =>
      have hrest := ih (σ := σ.put σ.issuer v ⟨x, σ.ids v⟩) hvs (Nat.succ.inj hlen)
      have hkept : vs.map (σ.put σ.issuer v ⟨x, σ.ids v⟩).vars = vs.map σ.vars := by
        refine List.map_congr_left fun w hw => Function.update_of_ne ?_ ..
        rintro rfl
        exact hv hw
      rw [setValues_cons, List.map_cons, hrest, hkept, setValues_vars_of_notMem hv]
      simp [put, ids, Product.withValues]

end SetValues

structure Placed (σ : Ledger F n) (places : List (Fin n × Bool)) (σ' : Ledger F n) : Prop where
  guards : σ'.issuer.Guards σ'.ids
  policy_eq : σ'.issuer.policy = σ.issuer.policy
  largest_le : σ.issuer.largest ≤ σ'.issuer.largest
  history_eq : σ'.history = σ.history
  value_eq : ∀ v, (σ'.vars v).value = (σ.vars v).value
  kept : ∀ v, v ∉ places.map Prod.fst → σ'.ids v = σ.ids v
  fresh : σ.issuer.policy = .linear → ∀ v ∈ places.map Prod.fst,
    σ'.ids v = passive ∨ σ.issuer.largest < σ'.ids v
  active : (places.map Prod.fst).Nodup → ∀ x ∈ places, (σ'.vars x.1).isActive = x.2

namespace Placed

variable {x : Fin n × Bool} {places : List (Fin n × Bool)}

theorem nil (h : σ.issuer.Guards σ.ids) : σ.Placed [] σ :=
  ⟨h, rfl, Nat.le_refl _, rfl, fun _ => rfl, fun _ _ => rfl, nofun, nofun⟩

theorem put {m : Issuer} {id : Identifier} (v : Fin n) {active : Bool}
    (hm : m.Guards (Function.update σ.ids v id)) (hpolicy : m.policy = σ.issuer.policy)
    (hlargest : σ.issuer.largest ≤ m.largest)
    (hfresh : σ.issuer.policy = .linear → id = passive ∨ σ.issuer.largest < id)
    (hactive : (id != passive) = active) :
    σ.Placed [(v, active)] (σ.put m v ⟨(σ.vars v).value, id⟩) := by
  have hids := ids_put σ m v ⟨(σ.vars v).value, id⟩
  refine ⟨hids ▸ hm, hpolicy, hlargest, rfl, fun w => ?_, fun w hw => ?_, fun hl w hw => ?_,
    fun _ x hx => ?_⟩
  · by_cases hw : w = v
    · simp [Ledger.put, hw]
    · simp [Ledger.put, hw]
  · have hne : w ≠ v := by simpa using hw
    rw [hids, Function.update_of_ne hne]
  · obtain rfl : w = v := by simpa using hw
    rw [hids, Function.update_self]
    exact hfresh hl
  · obtain rfl := List.mem_singleton.mp hx
    simpa [Ledger.put, Variable.isActive] using hactive

theorem cons (h : σ.Placed [x] σ') (h' : σ'.Placed places σ'') : σ.Placed (x :: places) σ'' := by
  refine ⟨h'.guards, h'.policy_eq.trans h.policy_eq, h.largest_le.trans h'.largest_le,
    h'.history_eq.trans h.history_eq, fun v => (h'.value_eq v).trans (h.value_eq v),
    fun v hv => ?_, fun hl v hv => ?_, fun hnodup y hy => ?_⟩
  · simp only [List.map_cons, List.mem_cons, not_or] at hv
    exact (h'.kept v hv.2).trans (h.kept v (by simpa using hv.1))
  · have hl' := h.policy_eq.trans hl
    by_cases hmem : v ∈ places.map Prod.fst
    · exact (h'.fresh hl' v hmem).imp_right h.largest_le.trans_lt
    · have hx : v ∈ [x].map Prod.fst := by simpa [hmem] using hv
      rw [h'.kept v hmem]
      exact h.fresh hl v hx
  · obtain ⟨hx, hnodup⟩ := List.nodup_cons.mp hnodup
    rcases List.mem_cons.mp hy with rfl | hy
    · have hkept := h'.kept y.1 hx
      have hactive := h.active (by simp) y (by simp)
      rw [Variable.isActive] at hactive ⊢
      rw [← hactive]
      exact congrArg (· != passive) hkept
    · exact h'.active hnodup y hy

theorem vars_eq_of_notMem {vs : List (Fin n)} {xs : List F} {v : Fin n}
    (h : (σ.setValues vs xs).Placed places σ') (hvs : v ∉ vs) (hv : v ∉ places.map Prod.fst) :
    σ'.vars v = σ.vars v := by
  have hids := h.kept v hv
  have hvalue := h.value_eq v
  rw [setValues_vars_of_notMem hvs] at hvalue
  rw [(setValues_ids ..).1] at hids
  exact congrArg₂ Variable.mk hvalue hids

theorem map_value_eq {vs : List (Fin n)} {xs : List F} (h : (σ.setValues vs xs).Placed places σ')
    (hvs : vs.Nodup) (hlength : vs.length = xs.length) :
    vs.map (fun v => (σ'.vars v).value) = xs := by
  calc vs.map (fun v => (σ'.vars v).value)
      = (vs.map (σ.setValues vs xs).vars).map Variable.value := by
        rw [List.map_map]
        exact List.map_congr_left fun v _ => h.value_eq v
    _ = xs := by
        rw [map_setValues_vars hvs hlength, Product.withValues, List.map_zipWith]
        refine List.ext_getElem (by simpa using hlength.ge) fun k hk hk' => ?_
        simp

end Placed

theorem place_yields (h : σ.issuer.Guards σ.ids) (x : Fin n × Bool) :
    Yields (σ.place x) (σ.Placed [x]) := by
  obtain ⟨v, active⟩ := x
  cases active with
  | true =>
    refine (h.exchange v).bind fun y hy => .ok ?_
    exact .put v hy.guards hy.policy_eq hy.largest_le (fun hl => .inr (hy.fresh hl))
      (by simpa using hy.ne_passive)
  | false =>
    refine (h.retire v).bind fun m hm => .ok ?_
    exact .put v hm.1 hm.2.1 hm.2.2.ge (fun _ => .inl rfl) rfl

theorem placeAll_yields (h : σ.issuer.Guards σ.ids) (places : List (Fin n × Bool)) :
    Yields (places.foldlM place σ) (σ.Placed places) := by
  induction places generalizing σ with
  | nil => exact .ok (.nil h)
  | cons x places ih =>
    rw [List.foldlM_cons]
    refine (place_yields h x).bind fun σ' hx => ?_
    exact (ih hx.guards).mono fun σ'' hrest => hx.cons hrest

section Multiply

variable {p : ProductRef n}

theorem map_fst_placings (h : σ.isActive p = true) :
    (σ.placings p).map Prod.fst = p.visited := by
  rw [placings, if_pos h, Product.places, ProductRef.visited, List.filterMap_map,
    List.filterMap_map, List.map_filterMap]
  refine List.filterMap_congr fun ij _ => ?_
  simp [Option.map_map, Function.comp_def]

theorem nodup_placings (σ : Ledger F n) (p : ProductRef n) :
    ((σ.placings p).map Prod.fst).Nodup := by
  cases h : σ.isActive p with
  | true =>
    rw [map_fst_placings h]
    exact p.nodup_visited
  | false =>
    have hplacings : σ.placings p = p.results.map fun v => (v, false) := by
      simp [placings, h]
    rw [hplacings, List.map_map]
    exact (List.map_id p.results).symm ▸ p.nodup

theorem mem_placings {v : Fin n} : v ∈ (σ.placings p).map Prod.fst ↔ v ∈ p.results := by
  cases h : σ.isActive p with
  | true =>
    rw [map_fst_placings h]
    exact p.mem_visited
  | false => simp [placings, h]

theorem call_fits (σ : Ledger F n) (p : ProductRef n) {ids : List Identifier}
    (h : ids.length = p.results.length) : (σ.call p ids).Fits :=
  ⟨by simp [call, p.length_left], by simp [call, p.length_right], h.trans p.length_results⟩

def logCall (σ : Ledger F n) (p : ProductRef n) (σ' : Ledger F n) : Ledger F n :=
  if σ.isActive p then σ'.log (.product (σ.call p (p.results.map σ'.ids))) else σ'

@[simp]
theorem vars_logCall (σ σ' : Ledger F n) (p : ProductRef n) :
    (σ.logCall p σ').vars = σ'.vars := by
  rw [logCall]
  split <;> rfl

@[simp]
theorem ids_logCall (σ σ' : Ledger F n) (p : ProductRef n) :
    (σ.logCall p σ').ids = σ'.ids := by
  rw [logCall]
  split <;> rfl

@[simp]
theorem issuer_logCall (σ σ' : Ledger F n) (p : ProductRef n) :
    (σ.logCall p σ').issuer = σ'.issuer := by
  rw [logCall]
  split <;> rfl

theorem history_logCall (σ σ' : Ledger F n) (p : ProductRef n) : (σ.logCall p σ').history =
    σ'.history ++
      if σ.isActive p then [.product (σ.call p (p.results.map σ'.ids))] else [] := by
  rw [logCall]
  split
  · rfl
  · rw [List.append_nil]

variable [Scalar F]

theorem length_values_call (σ : Ledger F n) (p : ProductRef n) :
    p.results.length = (σ.call p []).values.length := by
  rw [Product.Call.length_values]
  exact p.length_results

namespace Placed

variable (h : (σ.setValues p.results (σ.call p []).values).Placed (σ.placings p) σ')
include h

theorem vars_eq {v : Fin n} (hv : v ∉ p.results) : σ'.vars v = σ.vars v :=
  h.vars_eq_of_notMem hv (mt mem_placings.mp hv)

theorem isActive_eq_false (hactive : σ.isActive p = false) {v : Fin n} (hv : v ∈ p.results) :
    (σ'.vars v).isActive = false := by
  have hplace : (v, false) ∈ σ.placings p := by simp [placings, hactive, hv]
  exact h.active (nodup_placings σ p) _ hplace

theorem map_values : p.results.map (fun v => (σ'.vars v).value) = (σ.call p []).values :=
  h.map_value_eq p.nodup (length_values_call σ p)

theorem writes_eq : (Event.product (σ.call p (p.results.map σ'.ids))).writes =
    p.results.map fun v => (σ'.ids v, (σ'.vars v).value) := by
  change (p.results.map σ'.ids).zip (σ.call p []).values = _
  rw [← h.map_values, List.zip_map']

theorem map_fst_writes :
    (Event.product (σ.call p (p.results.map σ'.ids))).writes.map Prod.fst =
      p.results.map σ'.ids := by
  rw [h.writes_eq, List.map_map]
  rfl

theorem distinct : DistinctActive (p.results.map σ'.ids) :=
  List.pairwise_map.mpr (p.nodup.imp fun hne hv => h.guards.distinct _ _ hne hv)

theorem ids_notMem {v : Fin n} (hv : v ∉ p.results) (hne : σ'.ids v ≠ passive) :
    σ'.ids v ∉ p.results.map σ'.ids := by
  intro hmem
  obtain ⟨w, hw, heq⟩ := List.mem_map.mp hmem
  have hvw : v ≠ w := by
    rintro rfl
    exact hv hw
  exact h.guards.distinct v w hvw hne heq.symm

theorem issuer_history : σ'.issuer.policy = σ.issuer.policy ∧
    σ.issuer.largest ≤ σ'.issuer.largest ∧ σ'.history = σ.history := by
  obtain ⟨-, hissuer, hhistory⟩ := setValues_ids σ p.results (σ.call p []).values
  have hpolicy := h.policy_eq
  have hlargest := h.largest_le
  rw [hissuer] at hpolicy hlargest
  exact ⟨hpolicy, hlargest, h.history_eq.trans hhistory⟩

theorem sound_of_passive (hσ : σ.Sound) (hactive : σ.isActive p = false) : σ'.Sound := by
  obtain ⟨hpolicy, hlargest, hhistory⟩ := h.issuer_history
  refine hσ.keep h.guards hpolicy hlargest hhistory fun v => ?_
  by_cases hv : v ∈ p.results
  · left
    exact bne_eq_false_iff_eq.mp (h.isActive_eq_false hactive hv)
  · right
    exact h.vars_eq hv

theorem sound_log (hσ : σ.Sound) :
    (σ'.log (.product (σ.call p (p.results.map σ'.ids)))).Sound := by
  obtain ⟨hpolicy, hlargest, hhistory⟩ := h.issuer_history
  have hdistinct : DistinctActive
      ((Event.product (σ.call p (p.results.map σ'.ids))).writes.map Prod.fst) := by
    rw [h.map_fst_writes]
    exact h.distinct
  have hvars : ∀ v, σ'.ids v = passive ∨
      (σ'.vars v = σ.vars v ∧
        σ'.ids v ∉ (Event.product (σ.call p (p.results.map σ'.ids))).writes.map Prod.fst) ∨
      (σ'.ids v, (σ'.vars v).value) ∈
        (Event.product (σ.call p (p.results.map σ'.ids))).writes := by
    intro v
    rw [h.map_fst_writes, h.writes_eq]
    by_cases hv : v ∈ p.results
    · right
      right
      exact List.mem_map.mpr ⟨v, hv, rfl⟩
    · by_cases hpassive : σ'.ids v = passive
      · exact .inl hpassive
      · exact .inr (.inl ⟨h.vars_eq hv, h.ids_notMem hv hpassive⟩)
  have hregular : (Event.product (σ.call p (p.results.map σ'.ids))).Regular :=
    ⟨call_fits σ p (by simp), h.distinct⟩
  refine hσ.extend h.guards hpolicy hlargest (by rw [← hhistory]; rfl) hregular hdistinct hvars
    (fun hl w hw => ?_) ?_
  · rw [h.writes_eq] at hw
    obtain ⟨v, hv, rfl⟩ := List.mem_map.mp hw
    have hissuer := (setValues_ids σ p.results (σ.call p []).values).2.1
    have hfresh := h.fresh (by rw [hissuer]; exact hl) v (mem_placings.mpr hv)
    rw [hissuer] at hfresh
    exact hfresh.imp_right fun hlt => ⟨hlt, h.guards.held_le v⟩
  · intro c hc x hx
    cases hc
    have hvar : ∃ v, σ.vars v = x := by
      rcases List.mem_append.mp hx with hx | hx
      · exact (List.mem_map.mp hx).imp fun _ hv => hv.2
      · exact (List.mem_map.mp hx).imp fun _ hv => hv.2
    obtain ⟨v, rfl⟩ := hvar
    exact hσ.holds v

end Placed

theorem multiply_yields (h : σ.issuer.Guards σ.ids) (p : ProductRef n) :
    Yields (σ.multiply p) fun σ' => ∃ σ₁,
      (σ.placings p).foldlM place (σ.setValues p.results (σ.call p []).values) = .ok σ₁ ∧
      (σ.setValues p.results (σ.call p []).values).Placed (σ.placings p) σ₁ ∧
      σ' = σ.logCall p σ₁ := by
  obtain ⟨σ₁, hfold, h₁⟩ := placeAll_yields (guards_setValues h) (σ.placings p)
  rw [multiply, hfold]
  exact .ok ⟨σ₁, rfl, h₁, rfl⟩

theorem Sound.multiply (h : σ.Sound) (p : ProductRef n) :
    Yields (σ.multiply p) fun σ' => σ'.Sound ∧ σ'.issuer.policy = σ.issuer.policy := by
  refine (multiply_yields h.guards p).mono ?_
  rintro σ' ⟨σ₁, -, h₁, rfl⟩
  constructor
  · rw [logCall]
    split
    · exact h₁.sound_log h
    · rename_i hactive
      exact h₁.sound_of_passive h (Bool.eq_false_iff.mpr hactive)
  · rw [issuer_logCall]
    exact h₁.issuer_history.1

theorem Sound.step (h : σ.Sound) (i : Instruction F n) :
    Yields (σ.step i) fun σ' => σ'.Sound ∧ σ'.issuer.policy = σ.issuer.policy := by
  cases i with
  | line l => exact h.line l
  | input v => exact h.input v
  | multiply p => exact h.multiply p

end Multiply

end Ledger

end Autodiff
