import Autodiff.Proofs.Tracking

namespace Autodiff

open History

variable {F : Type} [Scalar F] {n : Nat}

structure Settling (q : Identifier → F) (t : Tape F) (σ : Ledger F n) (olds : List F)
    (vs done : List (Fin n)) : Prop where
  issuer_eq : t.issuer = σ.issuer
  adjoints_eq : t.vectors.adjoints = .new
  primals_eq : ∀ p ∈ t.vectors.primals,
    p.slot = overwrite q (done.map fun v => (σ.ids v, (σ.vars v).value))
  length_olds : olds.length = vs.length
  olds_eq : t.hasPrimals = true → ∀ (k : Nat) (v : Fin n), vs[k]? = some v → v ∈ done →
    olds[k]? = some (q (σ.ids v))

namespace Settling

variable {q : Identifier → F} {t t' : Tape F} {σ σ' : Ledger F n} {olds : List F}
  {vs done : List (Fin n)} {v : Fin n} {k : Nat} {old : F} {active : Bool}

theorem first {vs us : List (Fin n)} {xs : List F} (hissuer : t.issuer = σ.issuer)
    (hadjoints : t.vectors.adjoints = .new) (hprimals : ∀ p ∈ t.vectors.primals, p.slot = q)
    (hlength : olds.length = vs.length) : Settling q t (σ.setValues us xs) olds vs [] :=
  ⟨hissuer.trans (Ledger.setValues_ids ..).2.1.symm, hadjoints, hprimals, hlength,
    fun _ _ _ _ h => absurd h List.not_mem_nil⟩

omit [Scalar F] in
theorem ids_eq_of_mem (hplaced : σ.Placed [(v, active)] σ') (hv : v ∉ done) :
    ∀ w ∈ done, σ'.ids w = σ.ids w := by
  intro w hw
  refine hplaced.kept w ?_
  rw [List.map_singleton, List.mem_singleton]
  rintro rfl
  exact hv hw

theorem slot_eq (h : Settling q t σ olds vs done) (hplaced : σ.Placed [(v, active)] σ')
    (hv : v ∉ done) {p : Slots F} (hp : p ∈ t.vectors.primals) :
    p.slot (σ'.ids v) = q (σ'.ids v) := by
  rw [h.primals_eq p hp]
  by_cases hpassive : σ'.ids v = passive
  · rw [hpassive, overwrite_passive]
  · refine overwrite_of_notMem _ fun hmem => ?_
    rw [List.map_map] at hmem
    obtain ⟨w, hw, heq⟩ := List.mem_map.mp hmem
    have hne : v ≠ w := by
      rintro rfl
      exact hv hw
    refine hplaced.guards.distinct v w hne hpassive ?_
    rw [ids_eq_of_mem hplaced hv w hw]
    exact heq.symm

theorem snoc (h : Settling q t σ olds vs done) (hplaced : σ.Placed [(v, active)] σ')
    (hnodup : vs.Nodup) (hk : vs[k]? = some v) (hv : v ∉ done)
    (hissuer : t'.issuer = σ'.issuer) (hadjoints : t'.vectors.adjoints = t.vectors.adjoints)
    (hkind : t'.hasPrimals = t.hasPrimals)
    (hprimals : ∀ p' ∈ t'.vectors.primals, ∃ p ∈ t.vectors.primals,
      p'.slot = overwrite p.slot [(σ'.ids v, (σ'.vars v).value)])
    (hold : ∀ p ∈ t.vectors.primals, p.slot (σ'.ids v) = q (σ'.ids v) → old = q (σ'.ids v)) :
    Settling q t' σ' (olds.set k old) vs (done ++ [v]) := by
  have hkept := ids_eq_of_mem hplaced hv
  have hdone : (done.map fun w => (σ'.ids w, (σ'.vars w).value)) =
      done.map fun w => (σ.ids w, (σ.vars w).value) := by
    refine List.map_congr_left fun w hw => ?_
    rw [hkept w hw, hplaced.value_eq]
  refine ⟨hissuer, hadjoints.trans h.adjoints_eq, fun p' hp' => ?_, by simp [h.length_olds],
    fun hp j w hj hw => ?_⟩
  · obtain ⟨p, hp, hslot⟩ := hprimals p' hp'
    rw [hslot, h.primals_eq p hp, List.map_append, hdone, overwrite_append]
    rfl
  · have hlt := (List.getElem?_eq_some_iff.mp hk).1
    by_cases hjk : k = j
    · subst hjk
      obtain rfl : v = w := Option.some.inj (hk.symm.trans hj)
      rw [List.getElem?_set_self (h.length_olds.symm ▸ hlt)]
      rw [hkind] at hp
      cases hprimal : t.vectors.primals with
      | none => simp [Tape.hasPrimals, Vectors.hasPrimals, hprimal] at hp
      | some p => exact congrArg some (hold p hprimal (h.slot_eq hplaced hv hprimal))
    · rw [List.getElem?_set_ne hjk]
      have hne : w ≠ v := by
        rintro rfl
        exact hjk ((List.getElem?_inj hlt hnodup).mp (hk.trans hj.symm))
      have hmem : w ∈ done := by simpa [hne] using hw
      rw [hkept w hmem]
      exact h.olds_eq (hkind.symm.trans hp) j w hj hmem

theorem placeOutput (h : Settling q t σ olds vs done) (hguards : σ.issuer.Guards σ.ids)
    (hnodup : vs.Nodup) (hk : vs[k]? = some v) (hv : v ∉ done) (hq : q passive = 0)
    (hplace : σ.place (v, active) = .ok σ') :
    Yields (t.placeOutput (σ.vars v) active) fun x =>
      x.2.1 = σ'.vars v ∧ Settling q x.2.2 σ' (olds.set k x.1) vs (done ++ [v]) := by
  obtain ⟨σ₁, hok, hplaced⟩ := Ledger.place_yields hguards (v, active)
  obtain rfl : σ' = σ₁ := Except.ok.inj (hplace.symm.trans hok)
  cases active with
  | true =>
    obtain ⟨x, hx, hplace⟩ := exists_of_bind_eq_ok hplace
    cases hplace
    have hid : (σ.put x.2 v ⟨(σ.vars v).value, x.1⟩).ids v = x.1 := by
      rw [Ledger.ids_put, Function.update_self]
    have hvar : (σ.put x.2 v ⟨(σ.vars v).value, x.1⟩).vars v = ⟨(σ.vars v).value, x.1⟩ :=
      Function.update_self ..
    have hne : x.1 ≠ passive := by
      have := hplaced.active (by simp) (v, true) (by simp)
      rw [hvar] at this
      simpa [Variable.isActive] using this
    change Yields (t.freshOutput (σ.vars v)) _
    rw [Tape.freshOutput, h.issuer_eq,
      show σ.issuer.exchange (σ.vars v).identifier = .ok x from hx]
    refine .ok ⟨hvar.symm, h.snoc hplaced hnodup hk hv rfl rfl ?_ (fun p' hp' => ?_)
      fun p hp hslot => ?_⟩
    · exact Vectors.hasPrimals_map ..
    · obtain ⟨p, hp, rfl⟩ := Option.mem_map.mp hp'
      refine ⟨p, hp, ?_⟩
      rw [hid, hvar]
      exact slot_set_eq p _ hne
    · rw [hid] at hslot ⊢
      simp only [Option.mem_def] at hp
      rw [← hslot, hp]
  | false =>
    obtain ⟨m, hm, hplace⟩ := exists_of_bind_eq_ok hplace
    cases hplace
    have hid : (σ.put m v (.constant (σ.vars v).value)).ids v = passive := by
      rw [Ledger.ids_put, Function.update_self]
      rfl
    have hvar : (σ.put m v (.constant (σ.vars v).value)).vars v = .constant (σ.vars v).value :=
      Function.update_self ..
    -- A passive result overwrites nothing, and zero is what the passive slot holds.
    change Yields (t.release (σ.vars v) >>= fun x => pure (0, x.1, x.2)) _
    rw [Tape.release_eq (by rw [h.issuer_eq]; exact hm)]
    refine .ok ⟨hvar.symm, h.snoc hplaced hnodup hk hv rfl rfl rfl (fun p hp => ⟨p, hp, ?_⟩)
      fun p hp hslot => ?_⟩
    · rw [hid]
      rfl
    · rw [hid, hq]

omit [Scalar F] in
theorem set_map_vars (hplaced : σ.Placed [(v, active)] σ') (hnodup : vs.Nodup)
    (hk : vs[k]? = some v) : (vs.map σ.vars).set k (σ'.vars v) = vs.map σ'.vars := by
  have hlt := (List.getElem?_eq_some_iff.mp hk).1
  refine List.ext_getElem? fun j => ?_
  rw [List.getElem?_set, List.getElem?_map, List.getElem?_map]
  by_cases hjk : k = j
  · subst hjk
    rw [if_pos rfl, hk]
    simp [hlt]
  · rw [if_neg hjk]
    cases hj : vs[j]? with
    | none => rfl
    | some w =>
      have hne : w ≠ v := by
        rintro rfl
        exact hjk ((List.getElem?_inj hlt hnodup).mp (hk.trans hj.symm))
      have hvars : σ'.vars w = σ.vars w :=
        congrArg₂ Variable.mk (hplaced.value_eq w) (hplaced.kept w (by simpa using hne))
      rw [Option.map_some, Option.map_some, hvars]

theorem placeOutputs {places : List (Nat × Bool)} {a : Staged F}
    (h : Settling q t σ a.oldValues.items vs done) (hguards : σ.issuer.Guards σ.ids)
    (hnodup : vs.Nodup) (hq : q passive = 0) (hvalid : ∀ x ∈ places, x.1 < vs.length)
    (hdistinct : (done ++ (places.filterMap fun x =>
      vs[x.1]?.map fun v => (v, x.2)).map Prod.fst).Nodup)
    (hplace : (places.filterMap fun x => vs[x.1]?.map fun v => (v, x.2)).foldlM Ledger.place σ =
      .ok σ') :
    Yields (t.placeOutputs (vs.map σ.vars) a places) fun x =>
      x.1 = vs.map σ'.vars ∧ Settling q x.2.2 σ' x.2.1.oldValues.items vs
        (done ++ (places.filterMap fun x => vs[x.1]?.map fun v => (v, x.2)).map Prod.fst) := by
  induction places generalizing t σ a done with
  | nil =>
    cases hplace
    rw [List.filterMap_nil, List.map_nil, List.append_nil]
    exact .ok ⟨rfl, h⟩
  | cons x places ih =>
    obtain ⟨k, active⟩ := x
    have hlt : k < vs.length := hvalid (k, active) (by simp)
    have hk : vs[k]? = some vs[k] := List.getElem?_eq_getElem hlt
    have hcons : (((k, active) :: places).filterMap fun x => vs[x.1]?.map fun v => (v, x.2)) =
        (vs[k], active) :: places.filterMap fun x => vs[x.1]?.map fun v => (v, x.2) := by
      simp [hk]
    rw [hcons] at hdistinct hplace ⊢
    rw [List.map_cons] at hdistinct ⊢
    rw [List.foldlM_cons] at hplace
    obtain ⟨σ₁, hfirst, hplace⟩ := exists_of_bind_eq_ok hplace
    obtain ⟨σ₂, hok, hplaced⟩ := Ledger.place_yields hguards (vs[k], active)
    obtain rfl : σ₁ = σ₂ := Except.ok.inj (hfirst.symm.trans hok)
    have hv : vs[k] ∉ done := by
      intro hmem
      exact (List.nodup_append.mp hdistinct).2.2 _ hmem _ (by simp) rfl
    rw [Tape.placeOutputs, List.getD_eq_getElem _ _ (by simpa using hlt), List.getElem_map]
    refine (h.placeOutput hguards hnodup hk hv hq hfirst).bind fun y hy => ?_
    obtain ⟨old, y, t₁⟩ := y
    obtain ⟨rfl, hsettling⟩ := hy
    change Yields (t₁.placeOutputs ((vs.map σ.vars).set k _) (a.setOutput k _ old) places) _
    rw [set_map_vars hplaced hnodup hk]
    have hshift : done ++ vs[k] :: (places.filterMap fun x =>
        vs[x.1]?.map fun v => (v, x.2)).map Prod.fst = done ++ [vs[k]] ++
        (places.filterMap fun x => vs[x.1]?.map fun v => (v, x.2)).map Prod.fst := by
      simp
    rw [hshift] at hdistinct ⊢
    exact ih hsettling hplaced.guards (fun x hx => hvalid x (List.mem_cons_of_mem _ hx))
      hdistinct hplace

theorem result (h : Settling q t σ olds vs done) (hguards : σ.issuer.Guards σ.ids)
    (hdone : done.Nodup) (hvs : vs.Nodup) (hmem : ∀ v, v ∈ done ↔ v ∈ vs) :
    (t.hasPrimals = true → olds = (vs.map σ.ids).map q) ∧
      ∀ p ∈ t.vectors.primals,
        p.slot = overwrite q (vs.map fun v => (σ.ids v, (σ.vars v).value)) := by
  constructor
  · intro hp
    refine List.ext_getElem? fun k => ?_
    rw [List.getElem?_map, List.getElem?_map]
    cases hk : vs[k]? with
    | none =>
      have hle := List.getElem?_eq_none_iff.mp hk
      exact List.getElem?_eq_none (h.length_olds.symm ▸ hle)
    | some v => exact h.olds_eq hp k v hk ((hmem v).mpr (List.mem_of_getElem? hk))
  · intro p hp
    have hdistinct (us : List (Fin n)) (hus : us.Nodup) :
        DistinctActive ((us.map fun v => (σ.ids v, (σ.vars v).value)).map Prod.fst) := by
      rw [List.map_map]
      exact List.pairwise_map.mpr (hus.imp fun hne hv => hguards.distinct _ _ hne hv)
    rw [h.primals_eq p hp]
    refine overwrite_eq_of_mem_iff q (hdistinct done hdone) (hdistinct vs hvs) fun w => ?_
    simp only [List.mem_map, hmem]

end Settling

namespace Tape

variable {token : Token} {t t₁ : Tape F} {m m' : Issuer} {es : History F}

theorem Follows.product (h : t.Follows token m es) {c : Product.Call F} {record : Record F}
    {olds : List F} {pool pool' : Pool F} (hsame : SameLog { t with pool := pool } t₁)
    (hstores : record.Stores t₁.traits token c olds)
    (holds : t₁.hasPrimals = true → olds = c.results.map (primals es))
    (hprimals : ∀ p ∈ t₁.vectors.primals, p.slot = primals (es ++ [.product c]))
    (hadjoints : t₁.vectors.adjoints = .new) (hissuer : t₁.issuer = m') (hlent : pool'.lent = 0) :
    Follows token { t₁.withRecord record with pool := pool' } m' (es ++ [.product c]) := by
  have hvectors : (t₁.withRecord record).vectors = t₁.vectors := by
    simp [withRecord, Tape.append, Vectors.setPrimal]
  have htraits : ({ t₁.withRecord record with pool := pool' } : Tape F).traits = t₁.traits := by
    change Traits.mk (t₁.withRecord record).vectors.hasPrimals _ = _
    rw [hvectors]
    rfl
  have htraits₁ : t₁.traits = t.traits := hsame.traits_eq
  refine ⟨hissuer, ?_, rfl, hlent, ?_, ?_⟩
  · rw [htraits, htraits₁]
    change Logged t.traits token (t₁.records ++ [record]) (t₁.log ++ [_]) _
    rw [hsame.records_eq, hsame.log_eq]
    refine (h.logged.mono record).append (.product ?_ (htraits₁ ▸ hstores) fun hb => holds ?_)
    · exact List.getElem?_concat_length
    · rw [← htraits₁] at hb
      exact Traits.hasPrimals_of_rollsBack hb
  · exact (congrArg Vectors.adjoints hvectors).trans hadjoints
  · intro p hp
    exact hprimals p (by rw [← hvectors]; exact hp)

theorem releaseAll_eq {σ σ' : Ledger F n} {vs : List (Fin n)} (hissuer : t.issuer = σ.issuer)
    (hguards : σ.issuer.Guards σ.ids) (hvs : vs.Nodup)
    (hplace : (vs.map fun v => (v, false)).foldlM Ledger.place σ = .ok σ') :
    t.releaseAll (vs.map σ.vars) = .ok (vs.map σ'.vars, { t with issuer := σ'.issuer }) := by
  induction vs generalizing t σ with
  | nil =>
    cases hplace
    rw [← hissuer]
    rfl
  | cons v vs ih =>
    obtain ⟨hv, hvs⟩ := List.nodup_cons.mp hvs
    rw [List.map_cons, List.foldlM_cons] at hplace
    obtain ⟨σ₁, hfirst, hplace⟩ := exists_of_bind_eq_ok hplace
    obtain ⟨σ₂, hok, hplaced⟩ := Ledger.place_yields hguards (v, false)
    obtain rfl : σ₁ = σ₂ := Except.ok.inj (hfirst.symm.trans hok)
    obtain ⟨m, hm, hput⟩ := exists_of_bind_eq_ok hfirst
    cases hput
    have hkept : vs.map σ.vars = vs.map (σ.put m v (.constant (σ.vars v).value)).vars := by
      refine List.map_congr_left fun w hw => (Function.update_of_ne ?_ ..).symm
      rintro rfl
      exact hv hw
    have hlast : σ'.vars v = .constant (σ.vars v).value := by
      obtain ⟨σ₃, hok, hrest⟩ := Ledger.placeAll_yields hplaced.guards (vs.map fun v => (v, false))
      obtain rfl : σ' = σ₃ := Except.ok.inj (hplace.symm.trans hok)
      have hnot : v ∉ (vs.map fun v => (v, false)).map Prod.fst := by simpa using hv
      have hvar : σ'.vars v = (σ.put m v (.constant (σ.vars v).value)).vars v :=
        congrArg₂ Variable.mk (hrest.value_eq v) (hrest.kept v hnot)
      rw [hvar]
      exact Function.update_self ..
    rw [List.map_cons, List.map_cons, releaseAll,
      release_eq (m := m) (by rw [hissuer]; exact hm), hkept, hlast]
    change (releaseAll _ _ >>= fun x => _) = _
    rw [ih rfl hplaced.guards hvs hplace]
    rfl

end Tape

/-- A ledger in which the results of a product are settled. It holds of them what the other one does;
of the factors, which may have the same identifiers, it need not know. -/
structure Ledger.Settles (τ σ : Ledger F n) (p : ProductRef n) : Prop where
  issuer_eq : τ.issuer = σ.issuer
  vars_eq : ∀ v ∈ p.results, τ.vars v = σ.vars v
  guards : τ.issuer.Guards τ.ids

namespace Ledger.Settles

variable {t : Tape F} {kernels : Kernels F} {token : Token} {es : History F} {σ τ σ' : Ledger F n}
  {p : ProductRef n}

omit [Scalar F] in
theorem refl (h : σ.issuer.Guards σ.ids) (p : ProductRef n) : σ.Settles σ p :=
  ⟨rfl, fun _ _ => rfl, h⟩

variable (h : τ.Settles σ p)
include h

theorem valued_map : Product.valued p.order p.rows p.inner p.cols (p.left.map σ.vars)
    (p.right.map σ.vars) (p.results.map σ.vars) =
      p.results.map (τ.setValues p.results (σ.call p []).values).vars := by
  rw [map_setValues_vars p.nodup (length_values_call σ p), List.map_congr_left h.vars_eq]
  rfl

theorem setValues_issuer : (τ.setValues p.results (σ.call p []).values).issuer = σ.issuer :=
  (setValues_ids ..).2.1.trans h.issuer_eq

theorem multiply_of_passive (hissuer : t.issuer = σ.issuer) (hactive : σ.isActive p = false)
    (hfold : (σ.placings p).foldlM place (τ.setValues p.results (σ.call p []).values) = .ok σ') :
    Product.multiply t kernels token p.order p.rows p.inner p.cols (p.left.map σ.vars)
      (p.right.map σ.vars) (p.results.map σ.vars) =
        .ok (p.results.map σ'.vars, { t with issuer := σ'.issuer }) := by
  have hplacings : σ.placings p = p.results.map fun v => (v, false) := by
    simp [placings, hactive]
  rw [hplacings] at hfold
  rw [Product.multiply_of_passive (by simp [p.length_left]) (by simp [p.length_right])
    (by simp [p.length_results]) hactive, h.valued_map]
  exact Tape.releaseAll_eq (hissuer.trans h.setValues_issuer.symm) (guards_setValues h.guards)
    p.nodup hfold

theorem placeOutputs_yields (ht : t.Follows token σ.issuer es) (hactive : σ.isActive p = true)
    (hfold : (σ.placings p).foldlM place (τ.setValues p.results (σ.call p []).values) = .ok σ')
    {sr : Staged F} (pool : Pool F)
    (ho : sr.oldValues.items = List.replicate (p.rows * p.cols) 0) :
    Yields (({ t with pool := pool } : Tape F).placeOutputs
      (Product.valued p.order p.rows p.inner p.cols (p.left.map σ.vars) (p.right.map σ.vars)
        (p.results.map σ.vars)) sr (Product.places p.order p.rows p.inner p.cols
        (p.left.map σ.vars) (p.right.map σ.vars))) fun x =>
      x.1 = p.results.map σ'.vars ∧ Settling (primals es) x.2.2 σ' x.2.1.oldValues.items
        p.results ((σ.placings p).map Prod.fst) := by
  have hplacings : (Product.places p.order p.rows p.inner p.cols (p.left.map σ.vars)
      (p.right.map σ.vars)).filterMap (fun place => p.results[place.1]?.map fun v => (v, place.2)) =
      σ.placings p := (if_pos hactive).symm
  have hvalid : ∀ x ∈ Product.places p.order p.rows p.inner p.cols (p.left.map σ.vars)
      (p.right.map σ.vars), x.1 < p.results.length := by
    intro x hx
    obtain ⟨ij, hij, rfl⟩ := List.mem_map.mp hx
    obtain ⟨hi, hj⟩ := mem_indexPairs.mp hij
    rw [p.length_results]
    exact p.order.offset_lt hi hj
  have hfirst : Settling (primals es) { t with pool := pool }
      (τ.setValues p.results (σ.call p []).values) sr.oldValues.items p.results [] :=
    .first (ht.issuer_eq.trans h.issuer_eq.symm) ht.adjoints_eq ht.primals_eq
      (by rw [ho, List.length_replicate, p.length_results])
  rw [h.valued_map, ← hplacings]
  rw [← hplacings] at hfold
  refine hfirst.placeOutputs (guards_setValues h.guards) p.nodup (primals_passive _) hvalid ?_ hfold
  rw [hplacings]
  exact nodup_placings σ p

theorem multiply_of_active [LawfulCells F] {kernel : Kernel F} (ht : t.Follows token σ.issuer es)
    (hk : kernels token = some kernel) (hactive : σ.isActive p = true)
    (hplaced : (τ.setValues p.results (σ.call p []).values).Placed (σ.placings p) σ')
    (hfold : (σ.placings p).foldlM place (τ.setValues p.results (σ.call p []).values) = .ok σ') :
    Yields (Product.multiply t kernels token p.order p.rows p.inner p.cols (p.left.map σ.vars)
      (p.right.map σ.vars) (p.results.map σ.vars)) fun x => x.1 = p.results.map σ'.vars ∧
        x.2.Follows token σ'.issuer (es ++ [.product (σ.call p (p.results.map σ'.ids))]) := by
  have hyields := Product.multiply_yields (t := t) hk
    (show (p.left.map σ.vars).length = p.rows * p.inner by simp [p.length_left])
    (show (p.right.map σ.vars).length = p.inner * p.cols by simp [p.length_right])
    (show (p.results.map σ.vars).length = p.rows * p.cols by simp [p.length_results]) hactive
    fun sr pool ho => h.placeOutputs_yields ht hactive hfold pool ho
  refine hyields.mono ?_
  rintro ⟨ys, t'⟩ ⟨sr, t₁, record, pool, pool', ⟨rfl, hsettling⟩, hsame, hstores, hpool, rfl⟩
  obtain ⟨holds, hprimals⟩ := hsettling.result hplaced.guards (nodup_placings σ p) p.nodup
    fun v => mem_placings
  have hresults : (p.results.map σ'.vars).map Variable.identifier = p.results.map σ'.ids := by
    rw [List.map_map]
    rfl
  rw [hresults] at hstores
  have hf := ht.product hsame hstores holds (fun q hq => ?_) hsettling.adjoints_eq
    hsettling.issuer_eq (hpool.trans ht.lent_eq)
  · exact ⟨rfl, hf⟩
  · rw [hprimals q hq, primals_append, Event.redo]
    change _ = overwrite (primals es) ((p.results.map σ'.ids).zip (σ.call p []).values)
    rw [← hplaced.map_value_eq p.nodup (length_values_call σ p), List.zip_map']

end Ledger.Settles

theorem Product.valued_map (σ : Ledger F n) (p : ProductRef n) :
    valued p.order p.rows p.inner p.cols (p.left.map σ.vars) (p.right.map σ.vars)
      (p.results.map σ.vars) = p.results.map (σ.setValues p.results (σ.call p []).values).vars :=
  (Ledger.map_setValues_vars p.nodup (Ledger.length_values_call σ p)).symm

namespace Recording

theorem setAll_eq {r : Recording F} {f g : Fin n → Variable F} (vs : List (Fin n))
    (hr : r.vars = List.ofFn f) (hg : ∀ v, v ∉ vs → g v = f v) :
    (r.setAll (vs.map Fin.val) (vs.map g)).vars = List.ofFn g ∧
      (r.setAll (vs.map Fin.val) (vs.map g)).tape = r.tape := by
  induction vs generalizing r f with
  | nil =>
    refine ⟨?_, rfl⟩
    change r.vars = _
    rw [hr, show f = g from funext fun v => (hg v List.not_mem_nil).symm]
  | cons v vs ih =>
    have hset : (r.set v (g v)).vars = List.ofFn (Function.update f v (g v)) := by
      change r.vars.set v (g v) = _
      rw [hr, set_ofFn]
    refine ih hset fun w hw => ?_
    by_cases hwv : w = v
    · rw [hwv, Function.update_self]
    · rw [Function.update_of_ne hwv]
      exact hg w (by simp [hwv, hw])

namespace Tracks

variable {c : Catalogue F} {token : Token} {r : Recording F} {σ σ' : Ledger F n} {p : ProductRef n}

theorem setResults (h : r.Tracks token σ) {es : History F}
    (hplaced : (σ.setValues p.results (σ.call p []).values).Placed (σ.placings p) σ') {t : Tape F}
    (ht : t.Follows token σ'.issuer es) :
    (r.setResults (p.results.map Fin.val) (p.results.map σ'.vars, t)).2.Tracks token
      { σ' with history := es } := by
  have hset := setAll_eq (r := r.withTape t) p.results h.vars_eq fun v hv => hplaced.vars_eq hv
  refine ⟨hset.1, ?_⟩
  change Tape.Follows _ (Recording.setAll _ _ _).tape _ _
  rw [hset.2]
  exact ht

theorem multiply_of_passive {kernels : Kernels F} (h : r.Tracks token σ) (hσ : σ.Sound)
    (hactive : σ.isActive p = false)
    (hplaced : (σ.setValues p.results (σ.call p []).values).Placed (σ.placings p) σ')
    (hfold : (σ.placings p).foldlM Ledger.place (σ.setValues p.results (σ.call p []).values) =
      .ok σ') :
    Yields (Product.multiply r.tape kernels token p.order p.rows p.inner p.cols
      (p.left.map σ.vars) (p.right.map σ.vars) (p.results.map σ.vars)) fun x =>
      (r.setResults (p.results.map Fin.val) x).2.Tracks token σ' := by
  rw [(Ledger.Settles.refl hσ.guards p).multiply_of_passive h.follows.issuer_eq hactive hfold]
  have hset := h.setResults hplaced
    (h.follows.withIssuer hplaced.issuer_history.1)
  rw [← hplaced.issuer_history.2.2] at hset
  exact .ok hset

theorem multiply_of_active [LawfulCells F] {kernels : Kernels F} {kernel : Kernel F}
    (h : r.Tracks token σ) (hσ : σ.Sound) (hk : kernels token = some kernel)
    (hactive : σ.isActive p = true)
    (hplaced : (σ.setValues p.results (σ.call p []).values).Placed (σ.placings p) σ')
    (hfold : (σ.placings p).foldlM Ledger.place (σ.setValues p.results (σ.call p []).values) =
      .ok σ') :
    Yields (Product.multiply r.tape kernels token p.order p.rows p.inner p.cols
      (p.left.map σ.vars) (p.right.map σ.vars) (p.results.map σ.vars)) fun x =>
      (r.setResults (p.results.map Fin.val) x).2.Tracks token
        (σ'.log (.product (σ.call p (p.results.map σ'.ids)))) := by
  refine ((Ledger.Settles.refl hσ.guards p).multiply_of_active h.follows hk hactive hplaced
    hfold).mono ?_
  rintro ⟨ys, t⟩ ⟨rfl, ht⟩
  have hset := h.setResults hplaced ht
  rw [← hplaced.issuer_history.2.2] at hset
  exact hset

theorem multiply [LawfulCells F] {kernel : Kernel F} (h : r.Tracks (c.token .product) σ)
    (hσ : σ.Sound) (hk : c.kernels (c.token .product) = some kernel)
    (hstep : σ.multiply p = .ok σ') :
    Yields (r.apply c (Instruction.multiply (F := F) p).operation) fun x =>
      x.2.Tracks (c.token .product) σ' := by
  obtain ⟨σ₂, hok, σ₁, hfold, hplaced, rfl⟩ := Ledger.multiply_yields hσ.guards p
  obtain rfl : σ' = _ := Except.ok.inj (hstep.symm.trans hok)
  change Yields (Product.multiply r.tape c.kernels (c.token .product) p.order p.rows p.inner p.cols
    (r.getAll (p.left.map Fin.val)) (r.getAll (p.right.map Fin.val))
    (r.getAll (p.results.map Fin.val)) >>= fun x => pure (r.setResults _ x)) _
  rw [h.getAll_eq, h.getAll_eq, h.getAll_eq, Ledger.logCall]
  cases hactive : σ.isActive p with
  | false => exact (h.multiply_of_passive hσ hactive hplaced hfold).bind fun x hx => .ok hx
  | true => exact (h.multiply_of_active hσ hk hactive hplaced hfold).bind fun x hx => .ok hx

end Tracks

end Recording

end Autodiff
