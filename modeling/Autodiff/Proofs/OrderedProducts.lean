import Autodiff.Proofs.OrderedSweeps
import Autodiff.Proofs.SharedHandles

namespace Autodiff

variable {F : Type} [Scalar F]

theorem Issuer.retire_congr {m : Issuer} {id id' : Identifier}
    (h : m.policy = .reuse → id = id') : m.retire id = m.retire id' := by
  cases hp : m.policy with
  | linear => rw [retire, retire, hp]
  | reuse => rw [h hp]

theorem Issuer.retire_yields (m : Issuer) {id : Identifier}
    (hle : m.policy = .reuse → id ≤ m.largest) :
    Yields (m.retire id) fun m' => m'.policy = m.policy ∧ m'.largest = m.largest := by
  rw [retire]
  cases hp : m.policy with
  | linear => exact .ok ⟨hp, rfl⟩
  | reuse =>
    dsimp only
    rw [if_pos (hle hp)]
    split
    · exact .ok ⟨hp, rfl⟩
    · exact .ok ⟨rfl, rfl⟩

namespace Tape

open Issuer

variable {t t' : Tape F} {y : Variable F} {active : Bool}

theorem placeOutput_stage (pool : Pool F) {old : F} {y' : Variable F}
    (h : t.placeOutput y active = .ok (old, y', t')) :
    ({ t with pool := pool } : Tape F).placeOutput y active =
      .ok (old, y', { t' with pool := pool }) := by
  cases active with
  | true =>
    obtain ⟨z, hz, h⟩ := exists_of_bind_eq_ok h
    cases h
    change (t.issuer.exchange y.identifier >>= _) = _
    rw [hz]
    rfl
  | false =>
    obtain ⟨⟨y₁, t₁⟩, h₁, h⟩ := exists_of_bind_eq_ok h
    obtain ⟨t₂, h₂, h₁⟩ := exists_of_bind_eq_ok h₁
    obtain ⟨m, hm, h₂⟩ := exists_of_bind_eq_ok h₂
    cases h₂
    cases h₁
    cases h
    change (((t.issuer.retire y.identifier >>= _) >>= _) >>= _) = _
    rw [hm]
    rfl

theorem placeOutput_yields {ι : Type} [DecidableEq ι] {ids : ι → Identifier}
    (h : t.issuer.Guards ids) (v : ι)
    (hv : t.issuer.policy = .reuse → y.identifier = ids v) (active : Bool) :
    Yields (t.placeOutput y active) fun x =>
      x.2.2.issuer.Guards (Function.update ids v x.2.1.identifier) := by
  cases active with
  | true =>
    have hexchange : t.issuer.exchange y.identifier = t.issuer.exchange (ids v) :=
      congrArg (· >>= fun m : Issuer => Except.ok m.issue) (retire_congr hv)
    obtain ⟨z, hz, hgrants⟩ := h.exchange v
    change Yields (t.issuer.exchange y.identifier >>= _) _
    rw [hexchange, hz]
    exact .ok hgrants.guards
  | false =>
    obtain ⟨m, hm, hguards, -⟩ := h.retire v
    change Yields (((t.issuer.retire y.identifier >>= _) >>= _) >>= _) _
    rw [retire_congr hv, hm]
    exact .ok hguards

section Outputs

variable {rows cols : Nat} {r r' : Matrix (Variable F)} {ids ids' : Nat × Nat → Identifier}

structure Settling (t : Tape F) (r : Matrix (Variable F)) (ids : Nat × Nat → Identifier)
    (pairs : List (Nat × Nat)) (t' : Tape F) (r' : Matrix (Variable F))
    (ids' : Nat × Nat → Identifier) : Prop where
  sameLog : t.SameLog t'
  guards : t'.issuer.Guards ids'
  held : ∀ ij ∈ pairs, (r' ij.1 ij.2).identifier = ids' ij
  kept : ∀ ij ∉ pairs, r' ij.1 ij.2 = r ij.1 ij.2 ∧ ids' ij = ids ij

theorem placeOutputs_flatten {pairs : List (Nat × Nat)}
    (hpairs : ∀ ij ∈ pairs, ij.1 < rows ∧ ij.2 < cols) (hnodup : pairs.Nodup)
    (r : Matrix (Variable F)) (olds : Matrix F) (active : Nat → Nat → Bool)
    (h : t.issuer.Guards ids)
    (hids : t.issuer.policy = .reuse → ∀ ij ∈ pairs, (r ij.1 ij.2).identifier = ids ij) :
    ∃ t' r' ids' olds', t.Settling r ids pairs t' r' ids' ∧
      ∀ (s : MatrixOrder) (pool : Pool F) (a : Staged F),
        a.oldValues.items = olds.flatten s rows cols →
        ∃ a', ({ t with pool := pool } : Tape F).placeOutputs (r.flatten s rows cols) a
            (pairs.map fun ij => (s.offset rows cols ij.1 ij.2, active ij.1 ij.2)) =
          .ok (r'.flatten s rows cols, a', { t' with pool := pool }) ∧
          a'.oldValues.items = Matrix.flatten olds' s rows cols := by
  induction pairs generalizing t r olds ids with
  | nil =>
    exact ⟨t, r, ids, olds, ⟨.refl t, h, nofun, fun _ _ => ⟨rfl, rfl⟩⟩,
      fun s pool a ha => ⟨a, rfl, ha⟩⟩
  | cons ij pairs ih =>
    obtain ⟨i, j⟩ := ij
    obtain ⟨hi, hj⟩ := hpairs _ List.mem_cons_self
    obtain ⟨hnot, hnodup⟩ := List.nodup_cons.mp hnodup
    obtain ⟨⟨old, y, t₁⟩, hy, hguards⟩ := placeOutput_yields h (i, j)
      (fun hp => hids hp _ List.mem_cons_self) (active i j)
    have hsame := placeOutput_sameLog hy
    have hids₁ : t₁.issuer.policy = .reuse → ∀ ij ∈ pairs,
        (r.set i j y ij.1 ij.2).identifier = Function.update ids (i, j) y.identifier ij := by
      intro hp ij hij
      have hne : ij ≠ (i, j) := fun heq => hnot (heq ▸ hij)
      rw [Function.update_of_ne hne, Matrix.set_of_ne _ _ hne]
      exact hids (hsame.policy_eq.symm.trans hp) ij (List.mem_cons_of_mem _ hij)
    obtain ⟨t', r', ids', olds', hsettling, hplace⟩ := ih
      (fun ij hij => hpairs ij (List.mem_cons_of_mem _ hij)) hnodup (r.set i j y)
      (olds.set i j old) hguards hids₁
    refine ⟨t', r', ids', olds', ⟨hsame.trans hsettling.sameLog, hsettling.guards, ?_, ?_⟩,
      fun s pool a ha => ?_⟩
    · refine List.forall_mem_cons.mpr ⟨?_, hsettling.held⟩
      obtain ⟨hr', hids'⟩ := hsettling.kept (i, j) hnot
      rw [hr', hids', Function.update_self, Matrix.set_self]
    · intro kl hkl
      obtain ⟨hne, hkl⟩ := not_or.mp (mt List.mem_cons.mpr hkl)
      obtain ⟨hr', hids'⟩ := hsettling.kept kl hkl
      rw [hr', hids', Function.update_of_ne hne, Matrix.set_of_ne _ _ hne]
      exact ⟨rfl, rfl⟩
    · obtain ⟨a', ha', holds'⟩ := hplace s pool (a.setOutput (s.offset rows cols i j) y old) (by
        rw [← Matrix.set_flatten old hi hj, ← ha]
        rfl)
      refine ⟨a', ?_, holds'⟩
      rw [List.map_cons, placeOutputs, Matrix.getD_flatten _ hi hj, placeOutput_stage pool hy]
      rw [← ha', ← Matrix.set_flatten y hi hj]
      rfl

end Outputs

theorem releaseAll_yields {ys : List (Variable F)}
    (hle : t.issuer.policy = .reuse → ∀ y ∈ ys, y.identifier ≤ t.issuer.largest) :
    Yields (t.releaseAll ys) fun x => x.1 = ys.map Variable.release ∧
      ∃ m : Issuer, m.policy = t.issuer.policy ∧ m.largest = t.issuer.largest ∧
        x.2 = { t with issuer := m } := by
  induction ys generalizing t with
  | nil => exact .ok ⟨rfl, t.issuer, rfl, rfl, rfl⟩
  | cons y ys ih =>
    obtain ⟨m, hm, hpolicy, hlargest⟩ := t.issuer.retire_yields
      fun hp => hle hp y List.mem_cons_self
    have hrelease : t.release y = .ok (y.release, { t with issuer := m }) := by
      rw [release, retire, hm]
      rfl
    obtain ⟨⟨zs, t'⟩, hzs, hvalue, m', hpolicy', hlargest', ht'⟩ :=
      ih (t := { t with issuer := m }) fun hp z hz =>
        hlargest.symm ▸ hle (hpolicy.symm.trans hp) z (List.mem_cons_of_mem _ hz)
    have hall : t.releaseAll (y :: ys) = .ok (y.release :: zs, t') := by
      rw [releaseAll, hrelease]
      change ((Tape.releaseAll _ ys) >>= _) = _
      rw [hzs]
      rfl
    rw [hall]
    exact .ok ⟨congrArg (y.release :: ·) hvalue, m', hpolicy'.trans hpolicy,
      hlargest'.trans hlargest, ht'⟩

end Tape

namespace Product

open Tape

variable {rows inner cols : Nat} {a b r : Matrix (Variable F)} {s s' : MatrixOrder}

def withProduct (rows inner cols : Nat) (a b r : Matrix (Variable F)) : Matrix (Variable F) :=
  fun i j => ⟨Matrix.mul rows inner cols (fun i l => (a i l).value) (fun l j => (b l j).value) i j,
    (r i j).identifier⟩

theorem valued_flatten (s : MatrixOrder) (rows inner cols : Nat) (a b r : Matrix (Variable F)) :
    valued s rows inner cols (a.flatten s rows inner) (b.flatten s inner cols)
      (r.flatten s rows cols) = (withProduct rows inner cols a b r).flatten s rows cols := by
  rw [valued, withValues, Matrix.zipWith_flatten]
  refine Matrix.flatten_congr fun i hi j hj => ?_
  have hvalue : Matrix.mul rows inner cols
      (.ofList s rows inner ((a.flatten s rows inner).map Variable.value))
      (.ofList s inner cols ((b.flatten s inner cols).map Variable.value)) i j =
      Matrix.mul rows inner cols (fun i l => (a i l).value) (fun l j => (b l j).value) i j :=
    Matrix.mul_congr fun l hl => ⟨Call.ofList_map_flatten hi hl, Call.ofList_map_flatten hl hj⟩
  exact congrArg (Variable.mk · (r i j).identifier) hvalue

omit [Scalar F] in
theorem places_flatten (s : MatrixOrder) (rows inner cols : Nat) (a b : Matrix (Variable F)) :
    places s rows inner cols (a.flatten s rows inner) (b.flatten s inner cols) =
      (indexPairs rows cols).map fun ij =>
        (s.offset rows cols ij.1 ij.2, meetsActive inner a b ij.1 ij.2) := by
  refine List.map_congr_left fun ij hij => ?_
  obtain ⟨hi, hj⟩ := mem_indexPairs.mp hij
  rw [isActiveAt_flatten hi hj]

section Multiply

variable {kernels : Kernels F} {kernel : Kernel F} {token : Token} {t : Tape F}
  {ids : Nat × Nat → Identifier}

theorem multiply_passive_flatten (t : Tape F) (kernels : Kernels F) (token : Token)
    (hpassive : ∀ s, ((a.flatten s rows inner).any Variable.isActive ||
      (b.flatten s inner cols).any Variable.isActive) = false)
    (hle : t.issuer.policy = .reuse → ∀ i < rows, ∀ j < cols,
      (r i j).identifier ≤ t.issuer.largest) :
    ∃ r' : Matrix (Variable F), ∀ s,
      Yields (multiply t kernels token s rows inner cols (a.flatten s rows inner)
        (b.flatten s inner cols) (r.flatten s rows cols)) fun x =>
        x.1 = r'.flatten s rows cols ∧ ∃ m : Issuer, m.policy = t.issuer.policy ∧
          m.largest = t.issuer.largest ∧ x.2 = { t with issuer := m } := by
  refine ⟨fun i j => (withProduct rows inner cols a b r i j).release, fun s => ?_⟩
  rw [multiply_of_passive (Matrix.length_flatten ..) (Matrix.length_flatten ..)
    (Matrix.length_flatten ..) (hpassive s), valued_flatten]
  refine (releaseAll_yields fun hp => ?_).mono fun x hx => ?_
  · intro y hy
    obtain ⟨i, hi, j, hj, rfl⟩ := Matrix.mem_flatten.mp hy
    exact hle hp i hi j hj
  · rw [Matrix.map_flatten] at hx
    exact hx

theorem multiply_active_flatten [LawfulCells F] (hk : kernels token = some kernel)
    (hactive : ∀ s, ((a.flatten s rows inner).any Variable.isActive ||
      (b.flatten s inner cols).any Variable.isActive) = true)
    (h : t.issuer.Guards ids) (hids : t.issuer.policy = .reuse → ∀ ij ∈ indexPairs rows cols,
      (r ij.1 ij.2).identifier = ids ij) :
    ∃ (t' : Tape F) (r' : Matrix (Variable F)) (olds : Matrix F), t.SameLog t' ∧
      DistinctActive (Matrix.flatten (fun i j => (r' i j).identifier) .byRow rows cols) ∧
      ∀ s, Yields (multiply t kernels token s rows inner cols (a.flatten s rows inner)
        (b.flatten s inner cols) (r.flatten s rows cols)) fun x =>
        x.1 = r'.flatten s rows cols ∧ ∃ (record : Record F) (pool : Pool F),
          record.Stores t.traits token (Call.ofMatrices s rows inner cols a b
            fun i j => (r' i j).identifier) (olds.flatten s rows cols) ∧
          pool.lent = t.pool.lent ∧ x.2 = { t'.withRecord record with pool := pool } := by
  obtain ⟨t', r', ids', olds, hsettling, hplace⟩ := placeOutputs_flatten (t := t)
    (fun ij => mem_indexPairs.mp) (nodup_indexPairs rows cols)
    (withProduct rows inner cols a b r) (fun _ _ => 0) (meetsActive inner a b) h hids
  refine ⟨t', r', olds, hsettling.sameLog, ?_, fun s => ?_⟩
  · have hids' : Matrix.flatten (fun i j => (r' i j).identifier) .byRow rows cols =
        (indexPairs rows cols).map ids' := List.map_congr_left hsettling.held
    rw [hids']
    exact List.pairwise_map.mpr ((nodup_indexPairs rows cols).imp fun hne =>
      hsettling.guards.distinct _ _ hne)
  · refine (multiply_yields hk (Matrix.length_flatten ..) (Matrix.length_flatten ..)
      (Matrix.length_flatten ..) (hactive s) (Q := fun x => x.1 = r'.flatten s rows cols ∧
        x.2.1.oldValues.items = olds.flatten s rows cols ∧
        ∃ pool : Pool F, x.2.2 = { t' with pool := pool }) fun sr pool hsr => ?_).mono ?_
    · obtain ⟨sr', hsr', holds⟩ := hplace s pool sr (by
        rw [hsr, Matrix.flatten_const])
      rw [valued_flatten, places_flatten, hsr']
      exact .ok ⟨rfl, holds, pool, rfl⟩
    · rintro x ⟨sr, t₁, record, pool, pool', ⟨hx, holds, pool₁, rfl⟩, hsame, hstores, hl, hx₂⟩
      refine ⟨hx, record, pool', ?_, hl, hx₂⟩
      have htraits : ({ t' with pool := pool₁ } : Tape F).traits = t.traits := hsame.traits_eq
      rw [htraits, hx, Matrix.map_flatten] at hstores
      exact holds ▸ hstores

end Multiply

end Product

end Autodiff
