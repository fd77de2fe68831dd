import Autodiff.Proofs.Flattening
import Autodiff.Proofs.History
import Autodiff.Proofs.Ownership

namespace Autodiff

variable {F : Type} [Scalar F]

namespace Pool

theorem reclaim_yields {pool : Pool F} (a : Staged F) {lent : Nat} (h : pool.lent = lent + 4) :
    Yields (pool.reclaim a) (·.lent = lent) := by
  refine (returnIdentifiers_yields a.identifiers h).bind fun pool₁ h₁ => ?_
  refine (returnValues_yields a.values h₁).bind fun pool₂ h₂ => ?_
  refine (returnValues_yields a.gradients h₂).bind fun pool₃ h₃ => ?_
  exact returnValues_yields a.oldValues h₃

theorem reclaimAll_yields {pool : Pool F} (as : List (Staged F)) {lent : Nat}
    (h : pool.lent = 4 * as.length + lent) : Yields (pool.reclaimAll as) (·.lent = lent) := by
  induction as generalizing pool with
  | nil => exact .ok (by simpa using h)
  | cons a as ih =>
    rw [List.length_cons, show 4 * (as.length + 1) + lent = 4 * as.length + lent + 4 by omega] at h
    exact (reclaim_yields a h).bind fun pool₁ h₁ => ih h₁

end Pool

namespace Tape

theorem reclaim_yields {t : Tape F} (s : Schema F) (r : s.Record) {lent : Nat}
    (h : t.pool.lent = 4 * (s.arrays r).length + lent) :
    Yields (t.reclaim s r) fun t' =>
      ∃ pool : Pool F, pool.lent = lent ∧ t' = { t with pool := pool } :=
  (Pool.reclaimAll_yields _ h).bind fun pool hp => .ok ⟨pool, hp, rfl⟩

def withRecord (t : Tape F) (record : Record F) : Tape F :=
  { t with records := t.records ++ [record] }.append passive (.external t.records.length) 0

theorem writeRecord_eq [LawfulCells F] {kernels : Kernels F} {token : Token} {kernel : Kernel F}
    (t : Tape F) (hk : kernels token = some kernel) (s : Schema F) (r : s.Record)
    (hfit : s.Fits r) :
    t.writeRecord kernels token s r =
      .ok (t.withRecord ⟨token, s.fixedCells r, s.dynamicCells t.traits r⟩) := by
  have hfixed := Writer.holds_new (F := F) "fixed" (s.fixedSize r)
  have hdynamic := Writer.holds_new (F := F) "dynamic" (s.dynamicSize t.traits r)
  rw [← Schema.length_fixedCells s r hfit, ← Nat.add_zero (s.fixedCells r).length] at hfixed
  rw [← Schema.length_dynamicCells t.traits s r hfit,
    ← Nat.add_zero (s.dynamicCells t.traits r).length] at hdynamic
  obtain ⟨⟨fixed, dynamic⟩, hwrite, hf, hd⟩ := Schema.write_yields t.traits s r hfixed hdynamic
  rw [Nat.add_zero, Schema.length_fixedCells s r hfit, Nat.add_zero,
    Schema.length_dynamicCells t.traits s r hfit] at hwrite
  simp only [writeRecord, addRecord, Kernels.find, hk]
  change ((s.write t.traits r _ _ >>= _) >>= _) >>= _ = _
  rw [hwrite]
  change ((fixed.finish >>= fun _ => dynamic.finish >>= fun _ => _) >>= _) >>= _ = _
  rw [hf.finish]
  change ((dynamic.finish >>= fun _ => _) >>= _) >>= _ = _
  rw [hd.finish]
  change Except.ok (t.withRecord ⟨token, fixed.cells, dynamic.cells⟩) = _
  rw [hf.cells_eq, hd.cells_eq]
  rfl

theorem exists_of_writeRecord_eq_ok {kernels : Kernels F} {token : Token} {t t' : Tape F}
    {s : Schema F} {r : s.Record} (h : t.writeRecord kernels token s r = .ok t') :
    ∃ kernel, kernels token = some kernel := by
  obtain ⟨_, h, -⟩ := exists_of_bind_eq_ok h
  obtain ⟨kernel, h, -⟩ := exists_of_bind_eq_ok h
  cases hk : kernels token with
  | none =>
    rw [Kernels.find, hk] at h
    cases h
  | some kernel => exact ⟨kernel, rfl⟩

structure SameLog (t t' : Tape F) : Prop where
  log_eq : t'.log = t.log
  pending_eq : t'.pending = t.pending
  records_eq : t'.records = t.records
  pool_eq : t'.pool = t.pool
  hasPrimals_eq : t'.hasPrimals = t.hasPrimals
  policy_eq : t'.issuer.policy = t.issuer.policy
  unused_ne : passive ∉ t.issuer.unused → passive ∉ t'.issuer.unused

namespace SameLog

variable {t t' t'' : Tape F}

theorem refl (t : Tape F) : t.SameLog t := ⟨rfl, rfl, rfl, rfl, rfl, rfl, id⟩

theorem trans (h : t.SameLog t') (h' : t'.SameLog t'') : t.SameLog t'' :=
  ⟨h'.log_eq.trans h.log_eq, h'.pending_eq.trans h.pending_eq, h'.records_eq.trans h.records_eq,
    h'.pool_eq.trans h.pool_eq, h'.hasPrimals_eq.trans h.hasPrimals_eq,
    h'.policy_eq.trans h.policy_eq, h'.unused_ne ∘ h.unused_ne⟩

theorem traits_eq (h : t.SameLog t') : t'.traits = t.traits := by
  rw [traits, traits, h.hasPrimals_eq, h.policy_eq]

end SameLog

theorem release_sameLog {t t' : Tape F} {y y' : Variable F} (h : t.release y = .ok (y', t')) :
    t.SameLog t' := by
  obtain ⟨t₁, h₁, h⟩ := exists_of_bind_eq_ok h
  obtain ⟨m, hm, h₁⟩ := exists_of_bind_eq_ok h₁
  cases h₁
  cases h
  exact ⟨rfl, rfl, rfl, rfl, rfl, Issuer.policy_retire hm, fun h => Issuer.ne_of_retire h hm⟩

theorem freshOutput_sameLog {t t' : Tape F} {y y' : Variable F} {old : F}
    (h : t.freshOutput y = .ok (old, y', t')) : t.SameLog t' := by
  obtain ⟨⟨id, m⟩, hm, h⟩ := exists_of_bind_eq_ok h
  cases h
  refine ⟨rfl, rfl, rfl, rfl, ?_, Issuer.policy_exchange hm,
    fun h => (Issuer.ne_of_exchange h hm).2⟩
  exact Vectors.hasPrimals_map ..

theorem placeOutput_sameLog {t t' : Tape F} {y y' : Variable F} {old : F} {active : Bool}
    (h : t.placeOutput y active = .ok (old, y', t')) : t.SameLog t' := by
  rw [placeOutput] at h
  split at h
  · exact freshOutput_sameLog h
  · obtain ⟨⟨y₁, t₁⟩, h₁, h⟩ := exists_of_bind_eq_ok h
    cases h
    exact release_sameLog h₁

theorem releaseAll_sameLog {t t' : Tape F} {ys ys' : List (Variable F)}
    (h : t.releaseAll ys = .ok (ys', t')) : t.SameLog t' := by
  induction ys generalizing t ys' with
  | nil =>
    cases h
    exact .refl _
  | cons y ys ih =>
    obtain ⟨⟨y₁, t₁⟩, h₁, h⟩ := exists_of_bind_eq_ok h
    obtain ⟨⟨ys₂, t₂⟩, h₂, h⟩ := exists_of_bind_eq_ok h
    cases h
    exact (release_sameLog h₁).trans (ih h₂)

theorem placeOutputs_staged {t : Tape F} {ys : List (Variable F)} {a : Staged F}
    {places : List (Nat × Bool)} {x : List (Variable F) × Staged F × Tape F}
    (h : t.placeOutputs ys a places = .ok x) (hi : a.identifiers.items.length = ys.length)
    (ho : a.oldValues.items.length = ys.length)
    (hsync : ∀ k, k ∉ places.map Prod.fst →
      a.identifiers.items[k]? = (ys[k]?).map Variable.identifier) :
    x.2.1.identifiers.items = x.1.map Variable.identifier ∧
      x.2.1.oldValues.items.length = ys.length ∧ x.1.length = ys.length ∧ t.SameLog x.2.2 := by
  induction places generalizing t ys a with
  | nil =>
    cases h
    refine ⟨List.ext_getElem? fun k => ?_, ho, rfl, .refl _⟩
    rw [List.getElem?_map]
    exact hsync k List.not_mem_nil
  | cons place places ih =>
    obtain ⟨i, active⟩ := place
    obtain ⟨⟨old, y, t₁⟩, h₁, h⟩ := exists_of_bind_eq_ok h
    have hrest := @ih t₁ (ys.set i y) (a.setOutput i y old) h
      (by simp [Staged.setOutput, Buffer.setAt, hi]) (by simp [Staged.setOutput, Buffer.setAt, ho])
      fun k hk => by
        simp only [Staged.setOutput, Buffer.setAt, List.getElem?_set]
        by_cases hik : i = k
        · simp only [hik, if_true, hi]
          split <;> simp
        · simp only [hik, if_false]
          exact hsync k (by simpa using ⟨Ne.symm hik, by simpa using hk⟩)
    simp only [List.length_set] at hrest
    exact ⟨hrest.1, hrest.2.1, hrest.2.2.1, (placeOutput_sameLog h₁).trans hrest.2.2.2⟩

end Tape

namespace Product

theorem setFrom_none (la ra : Bool) :
    ∃ activity : ActivityMask, ActivityMask.none.setFrom 0 [la, ra] = .ok activity ∧
      activity.get 0 = la ∧ activity.get 1 = ra ∧ activity.any = (la || ra) := by
  cases la <;> cases ra
  · exact ⟨⟨0⟩, by decide⟩
  · exact ⟨⟨2⟩, by decide⟩
  · exact ⟨⟨1⟩, by decide⟩
  · exact ⟨⟨3⟩, by decide⟩

variable {t : Tape F} {kernels : Kernels F} {token : Token} {s : MatrixOrder} {n k m : Nat}
  {a b r : List (Variable F)}

def valued (s : MatrixOrder) (n k m : Nat) (a b r : List (Variable F)) : List (Variable F) :=
  withValues r ((Matrix.mul n k m (.ofList s n k (a.map Variable.value))
    (.ofList s k m (b.map Variable.value))).flatten s n m)

def places (s : MatrixOrder) (n k m : Nat) (a b : List (Variable F)) : List (Nat × Bool) :=
  (indexPairs n m).map fun ij => (s.offset n m ij.1 ij.2, isActiveAt s n k m a b ij.1 ij.2)

theorem multiply_of_passive (ha : a.length = n * k) (hb : b.length = k * m)
    (hr : r.length = n * m)
    (hact : (a.any Variable.isActive || b.any Variable.isActive) = false) :
    multiply t kernels token s n k m a b r = t.releaseAll (valued s n k m a b r) := by
  obtain ⟨activity, hset, -, -, hany⟩ :=
    setFrom_none (a.any Variable.isActive) (b.any Variable.isActive)
  have hleft : checkSize .left a (n * k) = .ok () := if_pos ha
  have hright : checkSize .right b (k * m) = .ok () := if_pos hb
  have hresult : checkSize .result r (n * m) = .ok () := if_pos hr
  unfold multiply
  simp only [hleft, hright, hresult, hset]
  change (if (!activity.any) = true then _ else _) = _
  rw [hany, hact]
  rfl

structure Prepared (a b : List (Variable F)) (size : Nat) (activity : ActivityMask)
    (sa sb sr : Staged F) : Prop where
  left_active : activity.get 0 = a.any Variable.isActive
  right_active : activity.get 1 = b.any Variable.isActive
  left_ids : sa.identifiers.items = a.map Variable.identifier
  left_values : sa.values.items = a.map Variable.value
  right_ids : sb.identifiers.items = b.map Variable.identifier
  right_values : sb.values.items = b.map Variable.value
  result_ids : sr.identifiers.items = List.replicate size passive
  result_olds : sr.oldValues.items = List.replicate size 0

variable (t kernels token s) in
theorem multiply_of_active (ha : a.length = n * k) (hb : b.length = k * m)
    (hr : r.length = n * m)
    (hact : (a.any Variable.isActive || b.any Variable.isActive) = true) :
    ∃ (activity : ActivityMask) (sa sb sr : Staged F) (pool : Pool F),
      Prepared a b (n * m) activity sa sb sr ∧ pool.lent = t.pool.lent + 12 ∧
      multiply t kernels token s n k m a b r =
        (({ t with pool := pool } : Tape F).placeOutputs (valued s n k m a b r) sr
          (places s n k m a b) >>= fun x =>
        x.2.2.writeRecord kernels token schema ⟨activity, s.code, n, k, m, sa, sb, x.2.1, ()⟩ >>=
          fun t' => t'.reclaim schema ⟨activity, s.code, n, k, m, sa, sb, x.2.1, ()⟩ >>=
          fun t' => pure (x.1, t')) := by
  obtain ⟨activity, hset, hl, hrt, hany⟩ :=
    setFrom_none (a.any Variable.isActive) (b.any Variable.isActive)
  let t₁ := (t.stageInputs a).2
  let t₂ := (t₁.stageInputs b).2
  refine ⟨activity, (t.stageInputs a).1, (t₁.stageInputs b).1, (t₂.stageOutputs (n * m)).1,
    (t₂.stageOutputs (n * m)).2.pool, ⟨hl, hrt, rfl, rfl, rfl, rfl, rfl, rfl⟩, rfl, ?_⟩
  have hleft : checkSize .left a (n * k) = .ok () := if_pos ha
  have hright : checkSize .right b (k * m) = .ok () := if_pos hb
  have hresult : checkSize .result r (n * m) = .ok () := if_pos hr
  unfold multiply
  simp only [hleft, hright, hresult, hset]
  change (if (!activity.any) = true then _ else _) = _
  rw [hany, hact]
  rfl

theorem length_valued (hr : r.length = n * m) : (valued s n k m a b r).length = n * m := by
  rw [valued, withValues, List.length_zipWith, Matrix.length_flatten, hr, Nat.min_self]

omit [Scalar F] in
theorem mem_places {p : Nat} (hp : p < n * m) : p ∈ (places s n k m a b).map Prod.fst := by
  obtain ⟨i, hi, j, hj, rfl⟩ := s.exists_offset hp
  rw [places, List.map_map]
  exact List.mem_map.mpr ⟨(i, j), mem_indexPairs.mpr ⟨hi, hj⟩, rfl⟩

section Record

variable [LawfulCells F] {kernel : Kernel F}

theorem record_yields (hk : kernels token = some kernel) {c : Call F} (hc : c.Fits)
    {olds : List F} (ho : olds.length = c.results.length) {activity : ActivityMask}
    {sa sb sr : Staged F} (hs : c.Staged olds activity sa sb sr) {lent : Nat}
    (hl : t.pool.lent = lent + 12) (ys : List (Variable F)) :
    Yields (t.writeRecord kernels token schema (c.toRecord activity sa sb sr) >>= fun t' =>
      t'.reclaim schema (c.toRecord activity sa sb sr) >>= fun t' => pure (ys, t')) fun x =>
      x.1 = ys ∧ ∃ (record : Record F) (pool : Pool F), record.Stores t.traits token c olds ∧
        pool.lent = lent ∧ x.2 = { t.withRecord record with pool := pool } := by
  rw [Tape.writeRecord_eq t hk schema _ (hs.fits hc ho)]
  have hlent : (t.withRecord ⟨token, schema.fixedCells (c.toRecord activity sa sb sr),
      schema.dynamicCells t.traits (c.toRecord activity sa sb sr)⟩).pool.lent =
      4 * (schema.arrays (c.toRecord activity sa sb sr)).length + lent := by
    rw [Nat.add_comm]
    exact hl
  refine (Tape.reclaim_yields schema _ hlent).bind fun t' ht' => .ok ?_
  obtain ⟨pool, hpool, rfl⟩ := ht'
  exact ⟨rfl, _, pool, ⟨rfl, hc, ho, activity, sa, sb, sr, hs, rfl, rfl⟩, hpool, rfl⟩

theorem placed_yields (hk : kernels token = some kernel) (ha : a.length = n * k)
    (hb : b.length = k * m) (hr : r.length = n * m) {activity : ActivityMask}
    {sa sb sr sr' : Staged F} {pool : Pool F} {ys : List (Variable F)} {t₁ : Tape F}
    (hs : Prepared a b (n * m) activity sa sb sr) (hlent : pool.lent = t.pool.lent + 12)
    (hx : ({ t with pool := pool } : Tape F).placeOutputs (valued s n k m a b r) sr
      (places s n k m a b) = .ok (ys, sr', t₁)) :
    Yields (t₁.writeRecord kernels token schema ⟨activity, s.code, n, k, m, sa, sb, sr', ()⟩ >>=
      fun t' => t'.reclaim schema ⟨activity, s.code, n, k, m, sa, sb, sr', ()⟩ >>=
      fun t' => pure (ys, t')) fun x =>
      x.1 = ys ∧ Tape.SameLog { t with pool := pool } t₁ ∧
        ∃ (record : Record F) (pool' : Pool F), record.Stores t₁.traits token
          ⟨s, n, k, m, a, b, ys.map Variable.identifier⟩ sr'.oldValues.items ∧
          pool'.lent = t.pool.lent ∧ x.2 = { t₁.withRecord record with pool := pool' } := by
  obtain ⟨hids, holds, hlen, hsame⟩ := Tape.placeOutputs_staged hx
    (by rw [hs.result_ids, List.length_replicate, length_valued hr])
    (by rw [hs.result_olds, List.length_replicate, length_valued hr]) (fun p hp => by
      have hge : n * m ≤ p := not_lt.mp fun h => hp (mem_places h)
      rw [List.getElem?_eq_none (by simpa [hs.result_ids] using hge),
        List.getElem?_eq_none (by simpa [length_valued hr] using hge)]
      rfl)
  simp only at hids holds hlen hsame
  have hfits : (⟨s, n, k, m, a, b, ys.map Variable.identifier⟩ : Call F).Fits :=
    ⟨ha, hb, by rw [List.length_map, hlen, length_valued hr]⟩
  have hstaged : (⟨s, n, k, m, a, b, ys.map Variable.identifier⟩ : Call F).Staged
      sr'.oldValues.items activity sa sb sr' := ⟨hs.left_active, hs.right_active, hs.left_ids,
    hs.left_values, hs.right_ids, hs.right_values, hids, rfl⟩
  have hlent' : t₁.pool.lent = t.pool.lent + 12 := by rw [hsame.pool_eq, hlent]
  refine (record_yields hk hfits (by rw [List.length_map, hlen, holds]) hstaged hlent' ys).mono ?_
  exact fun x hx => ⟨hx.1, hsame, hx.2⟩

theorem multiply_yields (hk : kernels token = some kernel) (ha : a.length = n * k)
    (hb : b.length = k * m) (hr : r.length = n * m)
    (hact : (a.any Variable.isActive || b.any Variable.isActive) = true)
    {Q : List (Variable F) × Staged F × Tape F → Prop}
    (hplace : ∀ (sr : Staged F) (pool : Pool F),
      sr.oldValues.items = List.replicate (n * m) 0 →
      Yields (({ t with pool := pool } : Tape F).placeOutputs (valued s n k m a b r) sr
        (places s n k m a b)) Q) :
    Yields (multiply t kernels token s n k m a b r) fun x =>
      ∃ (sr : Staged F) (t₁ : Tape F) (record : Record F) (pool pool' : Pool F),
        Q (x.1, sr, t₁) ∧ Tape.SameLog { t with pool := pool } t₁ ∧
        record.Stores t₁.traits token ⟨s, n, k, m, a, b, x.1.map Variable.identifier⟩
          sr.oldValues.items ∧
        pool'.lent = t.pool.lent ∧ x.2 = { t₁.withRecord record with pool := pool' } := by
  obtain ⟨activity, sa, sb, sr, pool, hs, hlent, heq⟩ :=
    multiply_of_active t kernels token s ha hb hr hact
  obtain ⟨⟨ys, sr', t₁⟩, hx, hQ⟩ := hplace sr pool hs.result_olds
  rw [heq, hx]
  refine (placed_yields hk ha hb hr hs hlent hx).mono ?_
  rintro ⟨ys', t'⟩ ⟨rfl, hsame, record, pool', hstores, hpool, rfl⟩
  exact ⟨sr', t₁, record, pool, pool', hQ, hsame, hstores, hpool, rfl⟩

omit [Scalar F] [LawfulCells F] in
theorem length_of_checkSize {operand : Operand} {xs : List (Variable F)} {size : Nat} {u : Unit}
    (h : checkSize operand xs size = .ok u) : xs.length = size := by
  by_contra hne
  rw [checkSize, if_neg hne] at h
  cases h

theorem exists_placed_of_multiply_eq_ok {ys : List (Variable F)} {t' : Tape F}
    (h : multiply t kernels token s n k m a b r = .ok (ys, t')) :
    r.length = n * m ∧
    (((a.any Variable.isActive || b.any Variable.isActive) = false ∧
        t.releaseAll (valued s n k m a b r) = .ok (ys, t')) ∨
      ((a.any Variable.isActive || b.any Variable.isActive) = true ∧
        ∃ (t₁ : Tape F) (record : Record F) (sr sr' : Staged F) (pool pool' : Pool F),
          ({ t with pool := pool } : Tape F).placeOutputs (valued s n k m a b r) sr
            (places s n k m a b) = .ok (ys, sr', t₁) ∧
          Tape.SameLog { t with pool := pool } t₁ ∧
          record.Stores t₁.traits token ⟨s, n, k, m, a, b, ys.map Variable.identifier⟩
            sr'.oldValues.items ∧
          pool'.lent = t.pool.lent ∧ t' = { t₁.withRecord record with pool := pool' })) := by
  obtain ⟨_, ha, h₁⟩ := exists_of_bind_eq_ok h
  obtain ⟨_, hb, h₂⟩ := exists_of_bind_eq_ok h₁
  obtain ⟨_, hr, -⟩ := exists_of_bind_eq_ok h₂
  replace ha := length_of_checkSize ha
  replace hb := length_of_checkSize hb
  replace hr := length_of_checkSize hr
  refine ⟨hr, ?_⟩
  cases hact : a.any Variable.isActive || b.any Variable.isActive with
  | false =>
    rw [multiply_of_passive ha hb hr hact] at h
    exact .inl ⟨rfl, h⟩
  | true =>
    obtain ⟨activity, sa, sb, sr, pool, hs, hlent, heq⟩ :=
      multiply_of_active t kernels token s ha hb hr hact
    rw [heq] at h
    obtain ⟨⟨ys', sr', t₁⟩, hx, h⟩ := exists_of_bind_eq_ok h
    obtain ⟨t₂, ht₂, -⟩ := exists_of_bind_eq_ok h
    obtain ⟨kernel, hk⟩ := Tape.exists_of_writeRecord_eq_ok ht₂
    obtain ⟨x, hok, hx₁, hsame, record, pool', hstores, hpool, hx₂⟩ :=
      placed_yields hk ha hb hr hs hlent hx
    obtain rfl : x = (ys, t') := Except.ok.inj (hok.symm.trans h)
    obtain rfl : ys = ys' := hx₁
    exact .inr ⟨rfl, t₁, record, sr, sr', pool, pool', hx, hsame, hstores, hpool, hx₂⟩

theorem of_multiply_eq_ok {ys : List (Variable F)} {t' : Tape F}
    (h : multiply t kernels token s n k m a b r = .ok (ys, t')) :
    ((a.any Variable.isActive || b.any Variable.isActive) = false ∧ t.SameLog t') ∨
      ((a.any Variable.isActive || b.any Variable.isActive) = true ∧
        ∃ (t₁ : Tape F) (record : Record F) (pool pool' : Pool F) (olds : List F),
          Tape.SameLog { t with pool := pool } t₁ ∧
          record.Stores t₁.traits token ⟨s, n, k, m, a, b, ys.map Variable.identifier⟩ olds ∧
          pool'.lent = t.pool.lent ∧ t' = { t₁.withRecord record with pool := pool' }) := by
  obtain ⟨-, ⟨hact, h⟩ | ⟨hact, t₁, record, -, sr', pool, pool', -, hplaced⟩⟩ :=
    exists_placed_of_multiply_eq_ok h
  · exact .inl ⟨hact, Tape.releaseAll_sameLog h⟩
  · exact .inr ⟨hact, t₁, record, pool, pool', _, hplaced⟩

end Record

end Product

end Autodiff
