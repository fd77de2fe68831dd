import Autodiff.Proofs.ProductTracking
import Autodiff.Proofs.Retracing

namespace Autodiff

variable {F : Type} [Scalar F] {n : Nat}

section Writes

variable {us ws : List (Identifier × F)}

omit [Scalar F] in
theorem overwrite_active (p : Identifier → F) (ws : List (Identifier × F)) :
    overwrite p (Ledger.active ws) = overwrite p ws := by
  induction ws generalizing p with
  | nil => rfl
  | cons w ws ih =>
    by_cases hw : w.1 = passive
    · have hactive : Ledger.active (w :: ws) = Ledger.active ws := by simp [Ledger.active, hw]
      rw [hactive, ih, overwrite, overwrite, List.foldl_cons, if_pos hw]
    · have hactive : Ledger.active (w :: ws) = w :: Ledger.active ws := by
        simp [Ledger.active, hw]
      rw [hactive, overwrite, overwrite, List.foldl_cons, List.foldl_cons]
      exact ih _

omit [Scalar F] in
theorem nodup_active (h : DistinctActive (ws.map Prod.fst)) :
    ((Ledger.active ws).map Prod.fst).Nodup := by
  have hsub : ((Ledger.active ws).map Prod.fst).Sublist (ws.map Prod.fst) :=
    List.filter_sublist.map Prod.fst
  refine (h.sublist hsub).imp_of_mem fun {i j} hi _ hij => hij ?_
  obtain ⟨w, hw, rfl⟩ := List.mem_map.mp hi
  simpa using (List.mem_filter.mp hw).2

omit [Scalar F] in
theorem overwrite_perm (p : Identifier → F) (hd : DistinctActive (ws.map Prod.fst))
    (h : (Ledger.active us).Perm (Ledger.active ws)) : overwrite p us = overwrite p ws := by
  have hws := nodup_active hd
  have hus : ((Ledger.active us).map Prod.fst).Nodup := (h.map Prod.fst).nodup_iff.mpr hws
  rw [← overwrite_active p us, ← overwrite_active p ws]
  have hdistinct {ids : List Identifier} (hids : ids.Nodup) : DistinctActive ids := by
    refine List.Pairwise.imp ?_ hids
    intro i j hij _
    exact hij
  exact overwrite_eq_of_mem_iff p (hdistinct hus) (hdistinct hws) fun w => h.mem_iff

end Writes

structure Tape.Rolling (t : Tape F) (σ : Ledger F n) (q : Identifier → F) : Prop where
  issuer_eq : t.issuer = σ.issuer
  guards : σ.issuer.Guards σ.ids
  rollsBack : t.traits.rollsBack = true
  lent_eq : t.pool.lent = 0
  adjoints_eq : t.vectors.adjoints = .new
  primals_eq : ∀ p ∈ t.vectors.primals, p.slot = q
  passive_eq : q passive = 0

structure Tape.Extends (kernels : Kernels F) (schema : Schema F) (t t' : Tape F)
    (p q : Identifier → F) : Prop where
  traits_eq : t'.traits = t.traits
  records : t.records <+: t'.records
  log : (t'.log = t.log ∧ q = p) ∨
    ∃ st, t'.log = t.log ++ [st] ∧ st.Reverts kernels schema t.traits t'.records p q

def Buffer.join {α : Type} (bs : List (Buffer α)) : Buffer α :=
  ⟨bs.flatMap Buffer.items, total (bs.map Buffer.room)⟩

def Staged.join (as : List (Staged F)) : Staged F :=
  ⟨.join (as.map identifiers), .join (as.map values), .join (as.map gradients),
    .join (as.map oldValues)⟩

namespace Tape

def stageResults (t : Tape F) : List Nat → List (Staged F) × Tape F
  | [] => ([], t)
  | size :: sizes =>
    let (a, t) := t.stageOutputs size
    let (as, t) := t.stageResults sizes
    (a :: as, t)

def settleCall (t : Tape F) (kernels : Kernels F) (token : Token) (schema : Schema F)
    (ys : List (Variable F)) (places : List (Nat × Bool)) (a : Staged F)
    (record : Staged F → schema.Record) : Except Fault (List (Variable F) × Tape F) := do
  let (ys, a, t) ← t.placeOutputs ys a places
  let t ← t.writeRecord kernels token schema (record a)
  let t ← t.reclaim schema (record a)
  return (ys, t)

def call (t : Tape F) (kernels : Kernels F) (token : Token) (schema : Schema F)
    (inputs : List (List (Variable F))) (sizes : List Nat) (ys : List (Variable F))
    (places : List (Nat × Bool)) (record : List (Staged F) → Staged F → schema.Record) :
    Except Fault (List (Variable F) × Tape F) :=
  let (as, t) := t.stageAll inputs
  let (bs, t) := t.stageResults sizes
  t.settleCall kernels token schema ys places (.join bs) (record as)

end Tape

/-- A call of an external function that computes values for some variables and records them. Each
result is settled once, and what its identifier stood for before goes into one of the output arrays
of the record, which has one for each of the sizes. -/
structure KernelCall (F : Type) [Scalar F] (n : Nat) where
  token : Token
  schema : Schema F
  inputs : List (List (Fin n))
  results : List (Fin n)
  sizes : List Nat
  values : List F
  places : List (Nat × Bool)
  record : List (Staged F) → Staged F → schema.Record
  nodup : results.Nodup
  sum_sizes : total sizes = results.length
  length_values : results.length = values.length
  places_perm : (places.map Prod.fst).Perm (List.range results.length)
  length_arrays : ∀ as a, (schema.arrays (record as a)).length = inputs.length + sizes.length
  fits : ∀ as a, List.Forall₂ (fun (b : Staged F) vs =>
      b.identifiers.items.length = vs.length ∧ b.values.items.length = vs.length) as inputs →
    a.identifiers.items.length = results.length → a.oldValues.items.length = results.length →
    schema.Fits (record as a)
  stores : ∀ as a, (Ledger.active (schema.replaced (record as a))).Perm
    (Ledger.active (a.identifiers.items.zip a.oldValues.items))

namespace Tape

theorem stageAll_eq (t : Tape F) (xss : List (List (Variable F))) :
    ∃ pool : Pool F, (t.stageAll xss).2 = { t with pool := pool } ∧
      pool.lent = t.pool.lent + 4 * xss.length ∧
      List.Forall₂ (fun (b : Staged F) xs => b.identifiers.items = xs.map Variable.identifier ∧
        b.values.items = xs.map Variable.value) (t.stageAll xss).1 xss := by
  induction xss generalizing t with
  | nil => exact ⟨t.pool, rfl, rfl, .nil⟩
  | cons xs xss ih =>
    obtain ⟨pool, hpool, hlent, hstaged⟩ := ih (t.stageInputs xs).2
    refine ⟨pool, hpool, ?_, .cons ⟨rfl, rfl⟩ hstaged⟩
    rw [hlent, List.length_cons]
    change t.pool.lent + 4 + 4 * xss.length = _
    omega

theorem stageResults_eq (t : Tape F) (sizes : List Nat) :
    ∃ pool : Pool F, (t.stageResults sizes).2 = { t with pool := pool } ∧
      pool.lent = t.pool.lent + 4 * sizes.length ∧
      (Staged.join (t.stageResults sizes).1).identifiers.items =
        List.replicate (total sizes) passive ∧
      (Staged.join (t.stageResults sizes).1).oldValues.items = List.replicate (total sizes) 0 := by
  induction sizes generalizing t with
  | nil => exact ⟨t.pool, rfl, rfl, rfl, rfl⟩
  | cons size sizes ih =>
    obtain ⟨pool, hpool, hlent, hids, holds⟩ := ih (t.stageOutputs size).2
    refine ⟨pool, hpool, ?_, ?_, ?_⟩
    · rw [hlent, List.length_cons]
      change t.pool.lent + 4 + 4 * sizes.length = _
      omega
    · exact (congrArg (List.replicate size passive ++ ·) hids).trans
        List.replicate_append_replicate
    · exact (congrArg (List.replicate size (0 : F) ++ ·) holds).trans
        List.replicate_append_replicate

theorem call_eq (t : Tape F) (kernels : Kernels F) (token : Token) (schema : Schema F)
    (inputs : List (List (Variable F))) (sizes : List Nat) (ys : List (Variable F))
    (places : List (Nat × Bool)) (record : List (Staged F) → Staged F → schema.Record) :
    ∃ (as : List (Staged F)) (a : Staged F) (pool : Pool F),
      List.Forall₂ (fun (b : Staged F) xs => b.identifiers.items = xs.map Variable.identifier ∧
        b.values.items = xs.map Variable.value) as inputs ∧
      a.identifiers.items = List.replicate (total sizes) passive ∧
      a.oldValues.items = List.replicate (total sizes) 0 ∧
      pool.lent = t.pool.lent + 4 * (inputs.length + sizes.length) ∧
      t.call kernels token schema inputs sizes ys places record =
        ({ t with pool := pool } : Tape F).settleCall kernels token schema ys places a
          (record as) := by
  obtain ⟨pool, hpool, hlent, hstaged⟩ := t.stageAll_eq inputs
  rcases hs : t.stageAll inputs with ⟨as, t₁⟩
  rw [hs] at hpool hstaged
  obtain rfl : t₁ = { t with pool := pool } := hpool
  obtain ⟨pool', hpool', hlent', hids, holds⟩ := stageResults_eq { t with pool := pool } sizes
  refine ⟨as, _, pool', hstaged, hids, holds, ?_, ?_⟩
  · rw [hlent']
    change pool.lent + _ = _
    omega
  · rw [call, hs]
    change settleCall (stageResults { t with pool := pool } sizes).2 _ _ _ _ _ _ _ = _
    rw [hpool']

end Tape

omit [Scalar F] in
theorem filterMap_getElem?_range {α : Type} (xs : List α) :
    (List.range xs.length).filterMap (xs[·]?) = xs := by
  induction xs with
  | nil => rfl
  | cons x xs ih =>
    rw [List.length_cons, List.range_succ_eq_map, List.filterMap_cons, List.filterMap_map]
    simpa using ih

namespace KernelCall

def placings (k : KernelCall F n) : List (Fin n × Bool) :=
  k.places.filterMap fun x => k.results[x.1]?.map fun v => (v, x.2)

variable (k : KernelCall F n)

theorem place_lt {x : Nat × Bool} (hx : x ∈ k.places) : x.1 < k.results.length := by
  have hmem := (k.places_perm.mem_iff).mp (List.mem_map_of_mem hx)
  simpa using hmem

theorem map_fst_placings :
    k.placings.map Prod.fst = (k.places.map Prod.fst).filterMap (k.results[·]?) := by
  rw [placings, List.filterMap_map, List.map_filterMap]
  refine List.filterMap_congr fun x _ => ?_
  simp [Option.map_map, Function.comp_def]

theorem placings_perm : (k.placings.map Prod.fst).Perm k.results := by
  rw [map_fst_placings]
  have hperm := k.places_perm.filterMap (k.results[·]?)
  rwa [filterMap_getElem?_range] at hperm

theorem nodup_placings : (k.placings.map Prod.fst).Nodup := k.placings_perm.nodup_iff.mpr k.nodup

end KernelCall

section Settle

variable {kernels : Kernels F} {t : Tape F} {σ : Ledger F n} {q : Identifier → F}

def KernelCall.valued (k : KernelCall F n) (σ : Ledger F n) : Ledger F n :=
  σ.setValues k.results k.values

theorem KernelCall.vars_eq (k : KernelCall F n) {σ' : Ledger F n}
    (h : (k.valued σ).Placed k.placings σ') {v : Fin n} (hv : v ∉ k.results) :
    σ'.vars v = σ.vars v :=
  Ledger.Placed.vars_eq_of_notMem h hv (mt k.placings_perm.mem_iff.mp hv)

theorem Tape.Rolling.placeOutputs_yields (h : t.Rolling σ q) (k : KernelCall F n)
    {a : Staged F} {pool : Pool F} (hi : a.identifiers.items = List.replicate k.results.length passive)
    (ho : a.oldValues.items = List.replicate k.results.length 0) :
    Yields (({ t with pool := pool } : Tape F).placeOutputs (k.results.map (k.valued σ).vars) a
      k.places) fun x => ∃ σ' : Ledger F n, (k.valued σ).Placed k.placings σ' ∧
        x.1 = k.results.map σ'.vars ∧ x.2.1.identifiers.items = k.results.map σ'.ids ∧
        x.2.1.oldValues.items = (k.results.map σ'.ids).map q ∧
        Tape.SameLog { t with pool := pool } x.2.2 ∧ x.2.2.issuer = σ'.issuer ∧
        x.2.2.vectors.adjoints = .new ∧ ∀ p ∈ x.2.2.vectors.primals,
          p.slot = overwrite q (k.results.map fun v => (σ'.ids v, (σ'.vars v).value)) := by
  have hguards : (k.valued σ).issuer.Guards (k.valued σ).ids := Ledger.guards_setValues h.guards
  obtain ⟨σ', hfold, hplaced⟩ := Ledger.placeAll_yields hguards k.placings
  have hfirst : Settling q { t with pool := pool } (k.valued σ) a.oldValues.items k.results [] :=
    .first h.issuer_eq h.adjoints_eq h.primals_eq (by rw [ho, List.length_replicate])
  obtain ⟨⟨ys, a', t'⟩, hplace, rfl, hsettling⟩ := hfirst.placeOutputs hguards k.nodup h.passive_eq
    (fun x hx => k.place_lt hx) (by rw [List.nil_append]; exact k.nodup_placings) hfold
  obtain ⟨hstaged, -, -, hsame⟩ := Tape.placeOutputs_staged hplace (by simp [hi]) (by simp [ho])
    fun i hi' => by
      have hge : k.results.length ≤ i := by
        by_contra hlt
        exact hi' ((k.places_perm.mem_iff).mpr (by simpa using hlt))
      simp [hi, hge]
  obtain ⟨holds, hprimals⟩ := hsettling.result hplaced.guards k.nodup_placings k.nodup
    fun v => k.placings_perm.mem_iff
  have htraits : t'.traits = t.traits := hsame.traits_eq
  have hhas : t'.hasPrimals = true := by
    have hb := h.rollsBack
    rw [← htraits] at hb
    exact Traits.hasPrimals_of_rollsBack hb
  refine ⟨_, hplace, σ', hplaced, rfl, ?_, holds hhas, hsame, hsettling.issuer_eq,
    hsettling.adjoints_eq, hprimals⟩
  rw [hstaged, List.map_map]
  rfl

variable [LawfulCells F] {kernel : Kernel F}

omit [LawfulCells F] in
theorem Tape.Rolling.record_extends (h : t.Rolling σ q) {t₁ : Tape F} {pool pool' : Pool F}
    {σ' : Ledger F n} {schema : Schema F} {a : schema.Record} (record : Record F)
    {q' : Identifier → F} (hk : kernels record.token = some kernel) (hkernel : kernel.Rewinds schema)
    (hfit : schema.Fits a) (hfixed : record.fixed = schema.fixedCells a)
    (hdynamic : record.dynamic = schema.dynamicCells t₁.traits a)
    (hsame : Tape.SameLog { t with pool := pool } t₁) (hissuer : t₁.issuer = σ'.issuer)
    (hguards : σ'.issuer.Guards σ'.ids) (hadjoints : t₁.vectors.adjoints = .new)
    (hprimals : ∀ p ∈ t₁.vectors.primals, p.slot = q') (hq' : q' passive = 0)
    (hlent : pool'.lent = 0) (hundo : overwrite q' (schema.replaced a) = q) :
    Tape.Rolling { t₁.withRecord record with pool := pool' } σ' q' ∧
      Tape.Extends kernels schema t { t₁.withRecord record with pool := pool' } q q' := by
  have htraits : t₁.traits = t.traits := hsame.traits_eq
  have hvectors : (t₁.withRecord record).vectors = t₁.vectors := by
    simp [Tape.withRecord, Tape.append, Vectors.setPrimal]
  have hkeep : Tape.traits { t₁.withRecord record with pool := pool' } = t.traits := by
    rw [← htraits]
    change Traits.mk (t₁.withRecord record).vectors.hasPrimals _ = _
    rw [hvectors]
    rfl
  have hrecords : t₁.records = t.records := hsame.records_eq
  have hlog : t₁.log = t.log := hsame.log_eq
  constructor
  · refine ⟨hissuer, hguards, ?_, hlent, ?_, ?_, hq'⟩
    · rw [hkeep]
      exact h.rollsBack
    · exact (congrArg Vectors.adjoints hvectors).trans hadjoints
    · intro p hp
      rw [← hvectors] at hprimals
      exact hprimals p hp
  · refine ⟨hkeep, ?_, .inr ⟨_, by rw [← hlog]; rfl, ?_⟩⟩
    · change t.records <+: t₁.records ++ [record]
      rw [hrecords]
      exact List.prefix_append ..
    · have hlast : (t₁.records ++ [record])[t₁.records.length]? = some record :=
        List.getElem?_concat_length
      exact .external hlast hk hkernel hfit hfixed (by rw [hdynamic, htraits]) hundo

theorem Tape.Rolling.settleCall_yields (h : t.Rolling σ q) (k : KernelCall F n)
    (hk : kernels k.token = some kernel) (hkernel : kernel.Rewinds k.schema) (as : List (Staged F))
    (a : Staged F) (pool : Pool F)
    (hlengths : List.Forall₂ (fun (b : Staged F) vs =>
      b.identifiers.items.length = vs.length ∧ b.values.items.length = vs.length) as k.inputs)
    (hi : a.identifiers.items = List.replicate k.results.length passive)
    (ho : a.oldValues.items = List.replicate k.results.length 0)
    (hlent : pool.lent = t.pool.lent + 4 * (k.inputs.length + k.sizes.length)) :
    Yields (Tape.settleCall { t with pool := pool } kernels k.token k.schema
      (k.results.map (k.valued σ).vars) k.places a (k.record as)) fun x =>
      ∃ (σ' : Ledger F n) (q' : Identifier → F), (k.valued σ).Placed k.placings σ' ∧
        x.1 = k.results.map σ'.vars ∧ x.2.Rolling σ' q' ∧
        Tape.Extends kernels k.schema t x.2 q q' := by
  refine (h.placeOutputs_yields k hi ho).bind ?_
  rintro ⟨ys, a', t₁⟩ ⟨σ', hplaced, hys, hids, holds, hsame, hissuer, hadjoints, hprimals⟩
  dsimp only at hys hids holds hsame hissuer hadjoints hprimals ⊢
  have hfit : k.schema.Fits (k.record as a') :=
    k.fits as a' hlengths (by simp [hids]) (by simp [holds])
  have hlent' : (t₁.withRecord ⟨k.token, k.schema.fixedCells (k.record as a'),
      k.schema.dynamicCells t₁.traits (k.record as a')⟩).pool.lent =
      4 * (k.schema.arrays (k.record as a')).length + 0 := by
    rw [k.length_arrays]
    change t₁.pool.lent = _
    rw [hsame.pool_eq]
    exact hlent.trans (by rw [h.lent_eq, Nat.add_comm])
  rw [Tape.writeRecord_eq t₁ hk k.schema _ hfit]
  refine (Tape.reclaim_yields k.schema _ hlent').bind fun t₂ ht₂ => ?_
  obtain ⟨pool', hpool', rfl⟩ := ht₂
  have hdistinct : DistinctActive (((k.results.map σ'.ids).zip
      ((k.results.map σ'.ids).map q)).map Prod.fst) := by
    rw [List.map_fst_zip (by simp)]
    exact List.pairwise_map.mpr (k.nodup.imp fun hne hv => hplaced.guards.distinct _ _ hne hv)
  have hstores := k.stores as a'
  rw [hids, holds] at hstores
  have hzip : (k.results.map σ'.ids).zip ((k.results.map σ'.ids).map q) =
      (k.results.map fun v => (σ'.ids v, (σ'.vars v).value)).map fun w => (w.1, q w.1) := by
    rw [List.map_map, List.map_map, List.zip_map']
    rfl
  -- What the record puts back is what the identifiers of the results stood for before.
  have hundo : overwrite (overwrite q (k.results.map fun v => (σ'.ids v, (σ'.vars v).value)))
      (k.schema.replaced (k.record as a')) = q := by
    rw [overwrite_perm _ hdistinct hstores, hzip]
    exact overwrite_overwrite q _
  let record : Record F := ⟨k.token, k.schema.fixedCells (k.record as a'),
    k.schema.dynamicCells t₁.traits (k.record as a')⟩
  have hrecord := h.record_extends record hk hkernel hfit rfl rfl hsame hissuer
    hplaced.guards hadjoints hprimals ((overwrite_passive ..).trans h.passive_eq) hpool' hundo
  exact .ok ⟨σ', _, hplaced, hys, hrecord.1, hrecord.2⟩

theorem Tape.Rolling.call_yields (h : t.Rolling σ q) (k : KernelCall F n)
    (hk : kernels k.token = some kernel) (hkernel : kernel.Rewinds k.schema) :
    Yields (t.call kernels k.token k.schema (k.inputs.map (·.map σ.vars)) k.sizes
      (k.results.map (k.valued σ).vars) k.places k.record) fun x =>
      ∃ (σ' : Ledger F n) (q' : Identifier → F), (k.valued σ).Placed k.placings σ' ∧
        x.1 = k.results.map σ'.vars ∧ x.2.Rolling σ' q' ∧
        Tape.Extends kernels k.schema t x.2 q q' := by
  obtain ⟨as, a, pool, hstaged, hi, ho, hlent, heq⟩ := t.call_eq kernels k.token k.schema
    (k.inputs.map (·.map σ.vars)) k.sizes (k.results.map (k.valued σ).vars) k.places k.record
  rw [heq]
  rw [k.sum_sizes] at hi ho
  rw [List.length_map] at hlent
  refine h.settleCall_yields k hk hkernel as a pool ?_ hi ho hlent
  refine (List.forall₂_map_right_iff.mp hstaged).imp fun b vs hb => ?_
  rw [hb.1, hb.2]
  simp

end Settle

end Autodiff
