import Autodiff.Proofs.OrderedProducts
import Autodiff.Proofs.Revisions

namespace Autodiff

open Product Tape

variable {F : Type} [ExactScalar F] {token : Token} {kernels : Kernels F} {t : Tape F}
  {rows inner cols : Nat}

def Issuer.Owed (m : Issuer) (ids : List Identifier) : Prop :=
  m.policy = .reuse → m.Accepts ids ∧ ∀ id ∈ ids, id ≤ m.largest

omit [ExactScalar F] in
theorem Issuer.Owed.exists_guards {m : Issuer} {y : Matrix (Variable F)}
    (h : m.Owed ((y.flatten .byRow rows cols).map Variable.identifier)) (hm : m.Bounded)
    (hlinear : m.policy = .linear → m.unused = []) :
    ∃ ids : Nat × Nat → Identifier, m.Guards ids ∧ (m.policy = .reuse →
      ∀ ij ∈ indexPairs rows cols, (y ij.1 ij.2).identifier = ids ij) := by
  cases hp : m.policy with
  | linear =>
    refine ⟨fun _ => passive, ⟨fun _ _ _ hne => absurd rfl hne, fun _ => Nat.zero_le _, ?_, ?_, ?_,
      ?_, hlinear⟩, nofun⟩
    all_goals rw [hlinear hp]
    · exact fun _ => List.not_mem_nil
    · exact List.not_mem_nil
    · exact nofun
    · exact List.nodup_nil
  | reuse =>
    obtain ⟨haccepts, hle⟩ := h hp
    rw [Matrix.flatten, List.map_map] at haccepts hle
    exact ⟨_, haccepts.guards hm (List.forall_mem_map.mp hle) hlinear,
      fun _ ij hij => (if_pos hij).symm⟩

namespace Product

theorem multiply_twin (inner : Nat) (hk : kernels token = some Product.kernel)
    (ht : t.Bounded token) (hidle : t.pool.lent = 0)
    (hlinear : t.issuer.policy = .linear → t.issuer.unused = []) (a b y : Matrix (Variable F))
    (hy : t.issuer.Owed ((y.flatten .byRow rows cols).map Variable.identifier))
    (s s' : MatrixOrder) :
    ∃ p : Matrix (Variable F),
      Yields (multiply t kernels token s rows inner cols (a.flatten s rows inner)
        (b.flatten s inner cols) (y.flatten s rows cols)) fun x =>
      Yields (multiply t kernels token s' rows inner cols (a.flatten s' rows inner)
        (b.flatten s' inner cols) (y.flatten s' rows cols)) fun x' =>
        x.1 = p.flatten s rows cols ∧ x'.1 = p.flatten s' rows cols ∧ x.2.Twin token x'.2 := by
  have hany (s s' : MatrixOrder) : ((a.flatten s rows inner).any Variable.isActive ||
      (b.flatten s inner cols).any Variable.isActive) =
      ((a.flatten s' rows inner).any Variable.isActive ||
        (b.flatten s' inner cols).any Variable.isActive) :=
    congrArg₂ or (Matrix.any_flatten ..) (Matrix.any_flatten ..)
  cases hactive : (a.flatten s rows inner).any Variable.isActive ||
      (b.flatten s inner cols).any Variable.isActive with
  | false =>
    obtain ⟨p, hp⟩ := multiply_passive_flatten t kernels token (r := y)
      (fun s' => (hany s' s).trans hactive) fun hreuse i hi j hj =>
        (hy hreuse).2 _ (List.mem_map_of_mem (Matrix.mem_flatten.mpr ⟨i, hi, j, hj, rfl⟩))
    refine ⟨p, (hp s).mono ?_⟩
    rintro ⟨_, _⟩ ⟨rfl, m, hm, hlargest, rfl⟩
    refine (hp s').mono ?_
    rintro ⟨_, _⟩ ⟨rfl, m', hm', hlargest', rfl⟩
    exact ⟨rfl, rfl, ht.twin_withIssuer hidle hm hm' (hlargest'.trans hlargest.symm)⟩
  | true =>
    obtain ⟨ids, hguards, hids⟩ := hy.exists_guards ht.issuer hlinear
    obtain ⟨t', p, olds, hsame, hd, hp⟩ := multiply_active_flatten (r := y) hk
      (fun s' => (hany s' s).trans hactive) hguards hids
    refine ⟨p, (hp s).mono ?_⟩
    rintro ⟨_, _⟩ ⟨rfl, record, pool, hstores, hl, rfl⟩
    refine (hp s').mono ?_
    rintro ⟨_, _⟩ ⟨rfl, record', pool', hstores', hl', rfl⟩
    have heffect : record.SameEffect t.traits token record' :=
      ⟨_, _, _, _, hstores, hstores', Call.sameEffect_ofMatrices t.traits
        (hd.perm (Matrix.flatten_perm ..)) olds⟩
    exact ⟨rfl, rfl, ht.twin_withRecord hsame heffect (hl.trans hidle) (hl'.trans hidle)⟩

end Product

structure MatrixOrder.Faithful (F : Type) [Scalar F] (s : MatrixOrder) (rows cols : Nat) :
    Prop where
  offset : Set.BijOn (fun ij : Nat × Nat => s.offset rows cols ij.1 ij.2)
    {ij | ij.1 < rows ∧ ij.2 < cols} (Set.Iio (rows * cols))
  flatten_ofList : ∀ xs : List F, xs.length = rows * cols →
    (Matrix.ofList s rows cols xs).flatten s rows cols = xs
  ofList_flatten : ∀ (p : Matrix F), ∀ i < rows, ∀ j < cols,
    Matrix.ofList s rows cols (p.flatten s rows cols) i j = p i j

theorem MatrixOrder.faithful (F : Type) [Scalar F] (s : MatrixOrder) (rows cols : Nat) :
    s.Faithful F rows cols where
  offset := s.bijOn_offset rows cols
  flatten_ofList xs h := Matrix.flatten_getD xs 0 s rows cols h
  ofList_flatten _ _ hi _ hj := Matrix.getD_flatten 0 hi hj

namespace Recording

variable {n : Nat} {c : Catalogue F} {r : Recording F} {ps : List Position}

/-- A product of matrices stored by column is the product of the same matrices stored by row: every
element of the result gets the same value and the same identifier, and full sweeps from the same
derivatives end with the same vectors. -/
theorem Evolves.multiply_orders (hr : r.Evolves n c ps)
    (hk : c.kernels (c.token .product) = some Product.kernel) (rows inner cols : Nat)
    (a b y : Matrix (Variable F))
    (hy : r.tape.issuer.Owed ((y.flatten .byRow rows cols).map Variable.identifier)) :
    (∃ (p : Matrix (Variable F)) (t u : Tape F),
      Product.multiply r.tape c.kernels (c.token .product) .byColumn rows inner cols
        (a.flatten .byColumn rows inner) (b.flatten .byColumn inner cols)
        (y.flatten .byColumn rows cols) = .ok (p.flatten .byColumn rows cols, t) ∧
      Product.multiply r.tape c.kernels (c.token .product) .byRow rows inner cols
        (a.flatten .byRow rows inner) (b.flatten .byRow inner cols)
        (y.flatten .byRow rows cols) = .ok (p.flatten .byRow rows cols, u) ∧
      ∀ v : Slots F,
        (∃ s s', (t.withAdjoints v).tangentSweepAll c.kernels = .ok s ∧
          (u.withAdjoints v).tangentSweepAll c.kernels = .ok s' ∧
          s'.tape.vectors = s.tape.vectors) ∧
        ∃ s s', (t.withAdjoints v).adjointSweepAll c.kernels = .ok s ∧
          (u.withAdjoints v).adjointSweepAll c.kernels = .ok s' ∧
          s'.tape.vectors = s.tape.vectors) ∧
    ∀ (s : MatrixOrder) (rows cols : Nat), s.Faithful F rows cols := by
  have hr := hr.consistent hk
  obtain ⟨p, ⟨ys, t⟩, ht, ⟨zs, u⟩, hu, rfl, rfl, htwin⟩ := Product.multiply_twin inner hk
    hr.bounded.tape hr.lent_eq hr.unused_linear a b y hy .byColumn .byRow
  refine ⟨⟨p, t, u, ht, hu, fun v => ?_⟩, fun s rows cols => s.faithful F rows cols⟩
  obtain ⟨⟨s, hs, s', hs', h⟩, w, hw, w', hw', h'⟩ := sweepAll_twin hk (htwin.withAdjoints v)
  exact ⟨⟨s, s', hs, hs', h⟩, w, w', hw, hw', h'⟩

theorem Evolves.multiply_orders_reused :
    ∃ (r : Recording Int) (ps : List Position) (p : Matrix (Variable Int)) (t u : Tape Int),
      r.Evolves 3 productOnly ps ∧ r.tape.issuer = ⟨.reuse, 3, []⟩ ∧
      Product.multiply r.tape productOnly.kernels (productOnly.token .product) .byColumn 2 1 3
        [⟨2, 1⟩, ⟨7, 0⟩] [⟨1, 0⟩, ⟨2, 3⟩, ⟨3, 0⟩]
        [⟨0, 0⟩, ⟨0, 2⟩, ⟨0, 0⟩, ⟨0, 0⟩, ⟨0, 0⟩, ⟨0, 0⟩] = .ok (p.flatten .byColumn 2 3, t) ∧
      Product.multiply r.tape productOnly.kernels (productOnly.token .product) .byRow 2 1 3
        [⟨2, 1⟩, ⟨7, 0⟩] [⟨1, 0⟩, ⟨2, 3⟩, ⟨3, 0⟩]
        [⟨0, 0⟩, ⟨0, 0⟩, ⟨0, 0⟩, ⟨0, 2⟩, ⟨0, 0⟩, ⟨0, 0⟩] = .ok (p.flatten .byRow 2 3, u) ∧
      p.flatten .byRow 2 3 = [⟨2, 4⟩, ⟨4, 5⟩, ⟨6, 6⟩, ⟨7, 0⟩, ⟨14, 2⟩, ⟨21, 0⟩] ∧
      ∀ v : Slots Int,
        (∃ s s', (t.withAdjoints v).tangentSweepAll productOnly.kernels = .ok s ∧
          (u.withAdjoints v).tangentSweepAll productOnly.kernels = .ok s' ∧
          s'.tape.vectors = s.tape.vectors) ∧
        ∃ s s', (t.withAdjoints v).adjointSweepAll productOnly.kernels = .ok s ∧
          (u.withAdjoints v).adjointSweepAll productOnly.kernels = .ok s' ∧
          s'.tape.vectors = s.tape.vectors := by
  have registered :
      (Recording.fresh .reuse .primalValues ![(2 : Int), 3, 5]).Evolves 3 productOnly [] := .fresh ..
  have inputs := ((registered.transfer (x := .instruct (.input 0)) rfl).transfer
    (x := .instruct (.input 1)) rfl).transfer (x := .instruct (.input 2)) rfl
  have recorded : Evolves 3 productOnly _ ([] ++ [_]) :=
    inputs.mark.transfer (x := .instruct (.line (.assign 0 6 [(1, 2)]))) rfl
  have back := recorded.backTo rfl
  obtain ⟨⟨p, t, u, ht, hu, hv⟩, -⟩ := back.multiply_orders rfl 2 1 3
    (fun i _ => if i = 0 then ⟨2, 1⟩ else ⟨7, 0⟩)
    (fun _ j => if j = 1 then ⟨2, 3⟩ else ⟨j + 1, 0⟩)
    (fun i j => if i = 1 ∧ j = 0 then ⟨0, 2⟩ else ⟨0, 0⟩)
    fun _ => ⟨⟨by unfold DistinctActive; decide, by decide, by decide⟩, by decide⟩
  have hvalue : p.flatten .byRow 2 3 =
      [⟨2, 4⟩, ⟨4, 5⟩, ⟨6, 6⟩, ⟨7, 0⟩, ⟨14, 2⟩, ⟨21, 0⟩] :=
    congrArg Prod.fst (Except.ok.inj hu.symm)
  exact ⟨_, _, p, t, u, back, rfl, ht, hu, hvalue, hv⟩

end Recording

end Autodiff
