import Autodiff.Proofs.Calls
import Autodiff.Proofs.Runs

namespace Autodiff

inductive Move (F : Type) [Scalar F] (n : Nat)
  | instruction (i : Instruction F n)
  | call (k : KernelCall F n)

variable {F : Type} [Scalar F] {n : Nat}

namespace Move

def schema : Move F n → Schema F
  | instruction _ => Product.schema
  | call k => k.schema

def Served (c : Catalogue F) : Move F n → Prop
  | instruction i => i.Served c
  | call k => ∃ kernel, c.kernels k.token = some kernel ∧ kernel.Rewinds k.schema

end Move

namespace Recording

def call (r : Recording F) (kernels : Kernels F) (k : KernelCall F n) :
    Except Fault (Note F × Recording F) := do
  let ys := Product.withValues (r.getAll (k.results.map Fin.val)) k.values
  let result ← r.tape.call kernels k.token k.schema
    (k.inputs.map fun vs => r.getAll (vs.map Fin.val)) k.sizes ys k.places k.record
  return r.setResults (k.results.map Fin.val) result

def move (r : Recording F) (c : Catalogue F) : Move F n → Except Fault (Note F × Recording F)
  | .instruction i => r.apply c i.operation
  | .call k => r.call c.kernels k

def record (r : Recording F) (c : Catalogue F) (program : List (Move F n)) :
    Except Fault (Recording F) :=
  program.foldlM (fun r m => do return (← r.move c m).2) r

structure Rolling (r : Recording F) (σ : Ledger F n) (q : Identifier → F) : Prop where
  vars_eq : r.vars = List.ofFn σ.vars
  tape : r.tape.Rolling σ q

def Extends (kernels : Kernels F) (schema : Schema F) (n : Nat) (q : Identifier → F)
    (r r' : Recording F) : Prop :=
  ∃ (σ' : Ledger F n) (q' : Identifier → F), r'.Rolling σ' q' ∧
    Tape.Extends kernels schema r.tape r'.tape q q'

end Recording

omit [Scalar F] in
theorem Product.places_perm (s : MatrixOrder) (rows inner cols : Nat) (a b : List (Variable F)) :
    ((places s rows inner cols a b).map Prod.fst).Perm (List.range (rows * cols)) := by
  rw [places, List.map_map]
  refine (List.perm_ext_iff_of_nodup (s.nodup_offsets rows cols) List.nodup_range).mpr fun k => ?_
  rw [List.mem_range]
  constructor
  · intro hk
    obtain ⟨ij, hij, rfl⟩ := List.mem_map.mp hk
    obtain ⟨hi, hj⟩ := mem_indexPairs.mp hij
    exact s.offset_lt hi hj
  · intro hk
    obtain ⟨i, hi, j, hj, rfl⟩ := s.exists_offset hk
    exact List.mem_map.mpr ⟨(i, j), mem_indexPairs.mpr ⟨hi, hj⟩, rfl⟩

def Ledger.kernelCall [LawfulCells F] (σ : Ledger F n) (p : ProductRef n) (token : Token)
    (activity : ActivityMask) : KernelCall F n where
  token := token
  schema := Product.schema
  inputs := [p.left, p.right]
  results := p.results
  sizes := [p.rows * p.cols]
  values := (σ.call p []).values
  places := Product.places p.order p.rows p.inner p.cols (p.left.map σ.vars) (p.right.map σ.vars)
  record as a := ⟨activity, p.order.code, p.rows, p.inner, p.cols, as.getD 0 (.join []),
    as.getD 1 (.join []), a, ()⟩
  nodup := p.nodup
  sum_sizes := p.length_results.symm
  length_values := Ledger.length_values_call σ p
  places_perm := by
    rw [p.length_results]
    exact Product.places_perm ..
  length_arrays _ _ := rfl
  fits as a has hi ho := by
    obtain ⟨b, _, hb, hrest, rfl⟩ := List.forall₂_cons_right_iff.mp has
    obtain ⟨b', _, hb', -, rfl⟩ := List.forall₂_cons_right_iff.mp hrest
    exact ⟨FieldType.activity_faithful _, FieldType.natural_faithful 0 _,
      FieldType.natural_faithful 3 _, FieldType.natural_faithful 3 _,
      FieldType.natural_faithful 3 _, hb.1.trans p.length_left, hb.2.trans p.length_left,
      hb'.1.trans p.length_right, hb'.2.trans p.length_right, hi.trans p.length_results,
      ho.trans p.length_results, trivial⟩
  stores _ a := by
    change (Ledger.active (_ ++ [])).Perm _
    rw [List.append_nil]

def Scaling.kernelCall [LawfulCells F] (token : Token) (factor : F) (x y : List (Fin n))
    (values : List F) (hxy : x.length = y.length) (hy : y.Nodup)
    (hvalues : y.length = values.length) : KernelCall F n where
  token := token
  schema := Scaling.schema
  inputs := [x]
  results := y
  sizes := [y.length]
  values := values
  places := (List.range y.length).map fun i => (i, true)
  record as a := ⟨⟨1⟩, x.length, factor, as.getD 0 (.join []), a, ()⟩
  nodup := hy
  sum_sizes := rfl
  length_values := hvalues
  places_perm := by
    rw [List.map_map]
    exact (List.map_id _).symm ▸ .refl _
  length_arrays _ _ := rfl
  fits as a has hi ho := by
    obtain ⟨b, _, hb, -, rfl⟩ := List.forall₂_cons_right_iff.mp has
    exact ⟨FieldType.activity_faithful _, FieldType.natural_faithful 3 _,
      FieldType.real_faithful _, hb.1, hb.2, hi.trans hxy.symm, ho.trans hxy.symm, trivial⟩
  stores _ a := by
    change (Ledger.active (_ ++ [])).Perm _
    rw [List.append_nil]

section Statements

variable {kernels : Kernels F} {schema : Schema F} {t : Tape F} {σ σ' : Ledger F n}
  {q : Identifier → F}

theorem Tape.Rolling.keep (h : t.Rolling σ q) (σ' : Ledger F n) (hissuer : σ'.issuer = σ.issuer)
    (hguards : σ'.issuer.Guards σ'.ids) :
    t.Rolling σ' q ∧ Tape.Extends kernels schema t t q q := by
  constructor
  · exact ⟨h.issuer_eq.trans hissuer.symm, hguards, h.rollsBack, h.lent_eq, h.adjoints_eq,
      h.primals_eq, h.passive_eq⟩
  · exact ⟨rfl, List.prefix_rfl, .inl ⟨rfl, rfl⟩⟩

theorem Tape.Rolling.withIssuer (h : t.Rolling σ q) (σ' : Ledger F n)
    (hpolicy : σ'.issuer.policy = σ.issuer.policy) (hguards : σ'.issuer.Guards σ'.ids) :
    Tape.Rolling { t with issuer := σ'.issuer } σ' q ∧
      Tape.Extends kernels schema t { t with issuer := σ'.issuer } q q := by
  have htraits : Tape.traits { t with issuer := σ'.issuer } = t.traits := by
    simp [Tape.traits, Tape.hasPrimals, h.issuer_eq, hpolicy]
  constructor
  · refine ⟨rfl, hguards, ?_, h.lent_eq, h.adjoints_eq, h.primals_eq, h.passive_eq⟩
    rw [htraits]
    exact h.rollsBack
  · exact ⟨htraits, List.prefix_rfl, .inl ⟨rfl, rfl⟩⟩

theorem Tape.Rolling.append (h : t.Rolling σ q) {v : Fin n} {x : Identifier × Issuer}
    (hx : σ.issuer.Grants σ.ids v x) (args : List (Identifier × F)) {kind : StatementKind}
    (hkind : kind = .elementary ∨ kind = .input) (value : F) :
    Tape.Rolling (({ t with issuer := x.2, pending := args } : Tape F).append x.1 kind value)
        (σ.put x.2 v ⟨value, x.1⟩) (overwrite q [(x.1, value)]) ∧
      Tape.Extends kernels schema t
        (({ t with issuer := x.2, pending := args } : Tape F).append x.1 kind value) q
        (overwrite q [(x.1, value)]) := by
  have hvectors : (({ t with issuer := x.2, pending := args } : Tape F).append x.1 kind
      value).vectors = { t.vectors with primals := t.vectors.primals.map (·.set x.1 value) } :=
    if_neg hx.ne_passive
  have htraits : (({ t with issuer := x.2, pending := args } : Tape F).append x.1 kind
      value).traits = t.traits := by
    rw [Tape.traits, Tape.hasPrimals, hvectors, Vectors.hasPrimals_map]
    exact congrArg₂ Traits.mk rfl (congrArg Policy.isLinear (h.issuer_eq ▸ hx.policy_eq))
  have hguards : (σ.put x.2 v ⟨value, x.1⟩).issuer.Guards (σ.put x.2 v ⟨value, x.1⟩).ids := by
    rw [Ledger.ids_put]
    exact hx.guards
  constructor
  · refine ⟨rfl, hguards, ?_, h.lent_eq, ?_, ?_, ?_⟩
    · rw [htraits]
      exact h.rollsBack
    · rw [hvectors]
      exact h.adjoints_eq
    · rw [hvectors]
      intro p' hp'
      obtain ⟨p, hp, rfl⟩ := Option.mem_map.mp hp'
      rw [slot_set_eq p value hx.ne_passive, h.primals_eq p hp]
    · exact (overwrite_passive ..).trans h.passive_eq
  · refine ⟨htraits, List.prefix_rfl, .inr ⟨_, rfl, ?_⟩⟩
    -- The statement keeps the primal that it overwrote.
    obtain ⟨p, hp⟩ := Option.isSome_iff_exists.mp (Traits.hasPrimals_of_rollsBack h.rollsBack)
    have hold : t.vectors.primals.map (fun p => (⟨value, Tape.replaced p x.1⟩ : Overwrite F)) =
        some ⟨value, q x.1⟩ := by
      rw [hp, Option.map_some, ← h.primals_eq p hp, Tape.replaced, if_neg hx.ne_passive]
    change Statement.Reverts _ _ _ _ _ _ ⟨x.1, kind, args, t.vectors.primals.map _⟩
    rw [hold]
    exact .own hx.ne_passive hkind (overwrite_overwrite q [(x.1, value)])

end Statements

omit [Scalar F] in
theorem Staged.join_singleton (a : Staged F) : Staged.join [a] = a := by
  simp [Staged.join, Buffer.join, total]

theorem Recording.apply_scale [LawfulCells F] {r : Recording F} {f : Fin n → Variable F}
    (hr : r.vars = List.ofFn f) (c : Catalogue F) (factor : F) {x y : List (Fin n)}
    (hxy : x.length = y.length) (hy : y.Nodup)
    (hactive : (x.map f).any Variable.isActive = true) :
    r.apply c (.scale factor (x.map Fin.val) (y.map Fin.val)) =
      r.call c.kernels (Scaling.kernelCall (c.token .scaling) factor x y
        (x.map fun v => factor * (f v).value) hxy hy (by rw [List.length_map, hxy])) := by
  have hvalues : (y.map f).zipWith (fun y x => { y with value := factor * x.value }) (x.map f) =
      Product.withValues (y.map f) (x.map fun v => factor * (f v).value) := by
    rw [Product.withValues, List.zipWith_map_right, List.zipWith_map_right]
  have hlength : (Product.withValues (y.map f) (x.map fun v => factor * (f v).value)).length =
      y.length := by
    simp [Product.withValues, hxy]
  have hmask : ActivityMask.none.setFrom 0 [true] = .ok ⟨1⟩ := rfl
  change Scaling.scale _ _ _ _ _ _ >>= _ = Tape.call _ _ _ _ [r.getAll (x.map Fin.val)] [y.length]
    (Product.withValues (r.getAll (y.map Fin.val)) _) _ _ >>= _
  have hx : (x.map f).length = x.length := List.length_map _
  rw [getAll_of_vars hr, getAll_of_vars hr, Scaling.scale, hvalues, hactive, hmask, hlength, hx]
  change _ = Tape.settleCall _ _ _ _ _ _ (.join [_]) _ >>= _
  rw [Staged.join_singleton]
  rfl

namespace Recording.Rolling

variable {kernels : Kernels F} {schema : Schema F} {c : Catalogue F} {r : Recording F}
  {σ σ' : Ledger F n} {q q' : Identifier → F}

theorem setResult (h : r.Rolling σ q) {t : Tape F} {m : Issuer} (v : Fin n) (y : Variable F)
    (ht : t.Rolling (σ.put m v y) q' ∧ Tape.Extends kernels schema r.tape t q q') :
    r.Extends kernels schema n q (r.setResult v (y, t)).2 :=
  ⟨σ.put m v y, q', ⟨vars_setResult h.vars_eq v y t, ht.1⟩, ht.2⟩

theorem setResults (h : r.Rolling σ q) {t : Tape F} {vs : List (Fin n)}
    (hvars : ∀ v, v ∉ vs → σ'.vars v = σ.vars v)
    (ht : t.Rolling σ' q' ∧ Tape.Extends kernels schema r.tape t q q') :
    r.Extends kernels schema n q (r.setResults (vs.map Fin.val) (vs.map σ'.vars, t)).2 := by
  obtain ⟨hset, htape⟩ := setAll_eq (r := r.withTape t) vs h.vars_eq hvars
  change _ = t at htape
  refine ⟨σ', q', ⟨hset, ?_⟩, ?_⟩
  · change (Recording.setAll _ _ _).tape.Rolling σ' q'
    rw [htape]
    exact ht.1
  · change Tape.Extends kernels schema r.tape (Recording.setAll _ _ _).tape q q'
    rw [htape]
    exact ht.2

theorem release (h : r.Rolling σ q) (v : Fin n) (value : F) :
    Yields (r.tape.release ⟨value, (σ.vars v).identifier⟩) fun x =>
      r.Extends kernels schema n q (r.setResult v x).2 := by
  obtain ⟨m, hm, hguards, hpolicy, -⟩ := h.tape.guards.retire v
  rw [Tape.release_eq (by rw [h.tape.issuer_eq]; exact hm)]
  refine .ok (h.setResult v _ (h.tape.withIssuer (σ.put m v (.constant value)) hpolicy ?_))
  rw [Ledger.ids_put]
  exact hguards

theorem line (h : r.Rolling σ q) (l : Line F n) :
    Yields (r.apply c l.operation) fun x => r.Extends kernels schema n q x.2 := by
  cases l with
  | constant v value =>
    refine .ok (h.setResult v _ (h.tape.keep (σ.put σ.issuer v (.constant value)) rfl ?_))
    rw [Ledger.ids_put]
    exact h.tape.guards.update_passive v
  | release v =>
    change Yields (r.tape.release (r.get v) >>= fun x => pure (r.setResult v x)) _
    rw [get_of_vars h.vars_eq]
    exact (h.release v _).bind fun x hx => .ok hx
  | assign v value args =>
    change Yields (r.tape.assign (r.get v) value ((args.map fun a =>
      ((IdRef.variable a.1.val, a.2) : IdRef × F)).map fun arg => (r.resolve arg.1, arg.2)) >>=
      fun x => pure (r.setResult v x)) _
    rw [get_of_vars h.vars_eq, arguments_of_vars h.vars_eq]
    change Yields (r.tape.assign _ value (σ.arguments args) >>= _) _
    by_cases hpassive : (σ.arguments args).all fun a => a.1 == passive
    · rw [Tape.assign, if_pos hpassive]
      exact (h.release v value).bind fun x hx => .ok hx
    · rw [Tape.assign_eq _ _ (by simpa using hpassive), Tape.addArguments_eq, h.tape.issuer_eq]
      exact .ok (h.setResult v _ (h.tape.append (h.tape.guards.settle v) _ (.inl rfl) value))
  | output v =>
    change Yields (r.tape.output (r.get v) >>= fun x => pure (r.setResult v x)) _
    rw [get_of_vars h.vars_eq]
    by_cases hpassive : σ.ids v = passive
    · have hself : σ.put σ.issuer v (σ.vars v) = σ := by
        rw [Ledger.put, Function.update_eq_self]
      rw [Tape.output, if_pos (show (σ.vars v).identifier = passive from hpassive)]
      refine .ok (h.setResult v _ (h.tape.keep (σ.put σ.issuer v (σ.vars v)) rfl ?_))
      rw [hself]
      exact h.tape.guards
    · obtain ⟨m, hm, hx⟩ := h.tape.guards.replace v
      rw [Tape.output_eq hpassive (by rw [h.tape.issuer_eq]; exact hm), Tape.addArguments_eq,
        h.tape.issuer_eq]
      exact .ok (h.setResult v _ (h.tape.append hx _ (.inl rfl) (σ.vars v).value))

theorem input (h : r.Rolling σ q) (v : Fin n) :
    Yields (r.apply c (.input v)) fun x => r.Extends kernels schema n q x.2 := by
  obtain ⟨x, hok, hx⟩ := h.tape.guards.exchange v
  have htraits : Tape.traits { r.tape with issuer := x.2 } = r.tape.traits := by
    simp [Tape.traits, Tape.hasPrimals, h.tape.issuer_eq, hx.policy_eq]
  change Yields (r.tape.input (r.get v) >>= fun x => pure (r.setResult v x)) _
  rw [get_of_vars h.vars_eq, Tape.input, h.tape.issuer_eq,
    show σ.issuer.exchange (σ.vars v).identifier = .ok x from hok]
  change Yields (pure (r.setResult v (_, if Tape.traits { r.tape with issuer := x.2 } |>.rollsBack
    then _ else _))) _
  rw [htraits, if_pos h.tape.rollsBack]
  exact .ok (h.setResult v _ (h.tape.append hx r.tape.pending (.inr rfl) (σ.vars v).value))

variable [LawfulCells F]

theorem multiply (h : r.Rolling σ q) (p : ProductRef n)
    (hk : c.kernels (c.token .product) = some Product.kernel) :
    Yields (r.apply c (Instruction.multiply (F := F) p).operation) fun x =>
      r.Extends c.kernels Product.schema n q x.2 := by
  change Yields (Product.multiply r.tape c.kernels (c.token .product) p.order p.rows p.inner p.cols
    (r.getAll (p.left.map Fin.val)) (r.getAll (p.right.map Fin.val))
    (r.getAll (p.results.map Fin.val)) >>= fun x => pure (r.setResults _ x)) _
  rw [getAll_of_vars h.vars_eq, getAll_of_vars h.vars_eq, getAll_of_vars h.vars_eq]
  cases hactive : σ.isActive p with
  | false =>
    have hguards : (σ.setValues p.results (σ.call p []).values).issuer.Guards
        (σ.setValues p.results (σ.call p []).values).ids := Ledger.guards_setValues h.tape.guards
    obtain ⟨σ', hfold, hplaced⟩ := Ledger.placeAll_yields hguards (σ.placings p)
    rw [(Ledger.Settles.refl h.tape.guards p).multiply_of_passive h.tape.issuer_eq hactive hfold]
    exact .ok (h.setResults (fun v hv => hplaced.vars_eq hv)
      (h.tape.withIssuer σ' hplaced.issuer_history.1 hplaced.guards))
  | true =>
    obtain ⟨activity, sa, sb, sr, pool, hs, hlent, heq⟩ := Product.multiply_of_active r.tape
      c.kernels (c.token .product) p.order
      (show (p.left.map σ.vars).length = p.rows * p.inner by simp [p.length_left])
      (show (p.right.map σ.vars).length = p.inner * p.cols by simp [p.length_right])
      (show (p.results.map σ.vars).length = p.rows * p.cols by simp [p.length_results]) hactive
    rw [heq, Product.valued_map]
    have hsettle := h.tape.settleCall_yields (σ.kernelCall p (c.token .product) activity) hk
      Product.kernel_rewinds [sa, sb] sr pool
      (.cons ⟨by simp [hs.left_ids], by simp [hs.left_values]⟩
        (.cons ⟨by simp [hs.right_ids], by simp [hs.right_values]⟩ .nil))
      (hs.result_ids.trans (by rw [← p.length_results]; rfl))
      (hs.result_olds.trans (by rw [← p.length_results]; rfl)) hlent
    refine hsettle.bind ?_
    rintro ⟨ys, t⟩ ⟨σ', q', hplaced, rfl, ht⟩
    exact .ok (h.setResults
      (fun v hv => KernelCall.vars_eq (σ.kernelCall p (c.token .product) activity) hplaced hv) ht)

theorem call (h : r.Rolling σ q) (k : KernelCall F n) {kernel : Kernel F}
    (hk : kernels k.token = some kernel) (hkernel : kernel.Rewinds k.schema) :
    Yields (r.call kernels k) fun x => r.Extends kernels k.schema n q x.2 := by
  have hinputs : (k.inputs.map fun vs => r.getAll (vs.map Fin.val)) =
      k.inputs.map (·.map σ.vars) :=
    List.map_congr_left fun vs _ => getAll_of_vars h.vars_eq vs
  rw [Recording.call, hinputs, getAll_of_vars h.vars_eq,
    ← Ledger.map_setValues_vars k.nodup k.length_values]
  refine (h.tape.call_yields k hk hkernel).bind ?_
  rintro ⟨ys, t⟩ ⟨σ', q', hplaced, rfl, ht⟩
  exact .ok (h.setResults (fun v hv => k.vars_eq hplaced hv) ht)

theorem move (h : r.Rolling σ q) {m : Move F n} (hm : m.Served c) :
    Yields (r.move c m) fun x => r.Extends c.kernels m.schema n q x.2 := by
  cases m with
  | instruction i =>
    cases i with
    | line l => exact h.line (c := c) l
    | input v => exact h.input (c := c) v
    | multiply p => exact h.multiply p hm
  | call k =>
    obtain ⟨kernel, hk, hkernel⟩ := hm
    exact h.call k hk hkernel

end Recording.Rolling

namespace Recording

def squareOf : ProductRef 3 where
  order := .byRow
  rows := 1
  inner := 1
  cols := 1
  left := [0]
  right := [0]
  results := [1]
  length_left := rfl
  length_right := rfl
  length_results := rfl
  nodup := List.nodup_singleton 1

end Recording

end Autodiff
