import Autodiff.Proofs.PassiveSeeds
import Autodiff.Proofs.StorageOrders

namespace Autodiff

variable {F : Type}

namespace Product

def meetsActive (inner : Nat) (a b : Matrix (Variable F)) (i j : Nat) : Bool :=
  (List.range inner).any fun l => (a i l).isActive || (b l j).isActive

theorem isActiveAt_flatten {s : MatrixOrder} {rows inner cols i j : Nat}
    {a b : Matrix (Variable F)} (hi : i < rows) (hj : j < cols) :
    isActiveAt s rows inner cols (a.flatten s rows inner) (b.flatten s inner cols) i j =
      meetsActive inner a b i j := by
  rw [isActiveAt, meetsActive, Bool.eq_iff_iff, List.any_eq_true, List.any_eq_true]
  refine exists_congr fun l => and_congr_right fun hl => ?_
  rw [List.mem_range] at hl
  rw [Matrix.getElem?_flatten a s hi hl, Matrix.getElem?_flatten b s hl hj, Option.any_some,
    Option.any_some]

namespace Call

def ofMatrices (s : MatrixOrder) (rows inner cols : Nat) (a b : Matrix (Variable F))
    (r : Matrix Identifier) : Call F :=
  ⟨s, rows, inner, cols, a.flatten s rows inner, b.flatten s inner cols, r.flatten s rows cols⟩

variable {s s' : MatrixOrder} {rows inner cols i j l : Nat} {a b : Matrix (Variable F)}
  {r : Matrix Identifier} {v : Slots F}

theorem exists_seen_ofMatrices (rows inner cols : Nat) (a b : Matrix (Variable F))
    (r : Matrix Identifier) (traits : Traits) (q : Identifier → F) :
    ∃ a' b', ∀ s, (ofMatrices s rows inner cols a b r).seen traits q =
      ofMatrices s rows inner cols a' b' r := by
  cases hp : traits.hasPrimals with
  | false =>
    refine ⟨a, b, fun s => ?_⟩
    rw [seen, hp, if_neg Bool.false_ne_true]
  | true =>
    refine ⟨fun i l => (a i l).seen q, fun l j => (b l j).seen q, fun s => ?_⟩
    rw [seen, hp, if_pos rfl]
    simp only [ofMatrices, Matrix.map_flatten]

theorem leftActive_ofMatrices : (ofMatrices s rows inner cols a b r).leftActive =
    (ofMatrices s' rows inner cols a b r).leftActive := Matrix.any_flatten ..

theorem rightActive_ofMatrices : (ofMatrices s rows inner cols a b r).rightActive =
    (ofMatrices s' rows inner cols a b r).rightActive := Matrix.any_flatten ..

section Scalar

variable [Scalar F]

theorem ofList_map_flatten {α : Type} {p : Matrix α} {f : α → F} (hi : i < rows) (hj : j < cols) :
    Matrix.ofList s rows cols ((p.flatten s rows cols).map f) i j = f (p i j) := by
  rw [Matrix.ofList, Matrix.map_flatten]
  exact Matrix.getD_flatten 0 hi hj

theorem mul_map_flatten (f g : Variable F → F) (hi : i < rows) (hj : j < cols) :
    Matrix.mul rows inner cols (.ofList s rows inner ((a.flatten s rows inner).map f))
      (.ofList s inner cols ((b.flatten s inner cols).map g)) i j =
    Matrix.mul rows inner cols (.ofList s' rows inner ((a.flatten s' rows inner).map f))
      (.ofList s' inner cols ((b.flatten s' inner cols).map g)) i j := by
  refine Matrix.mul_congr fun l hl => ⟨?_, ?_⟩
  · exact (ofList_map_flatten hi hl).trans (ofList_map_flatten hi hl).symm
  · exact (ofList_map_flatten hl hj).trans (ofList_map_flatten hl hj).symm

theorem zip_values_perm :
    ((ofMatrices s rows inner cols a b r).results.zip
      (ofMatrices s rows inner cols a b r).values).Perm
    ((ofMatrices s' rows inner cols a b r).results.zip
      (ofMatrices s' rows inner cols a b r).values) :=
  Matrix.zip_flatten_perm fun _ hi _ hj => mul_map_flatten _ _ hi hj

theorem tangentMatrix_ofMatrices (v : Slots F) (hi : i < rows) (hj : j < cols) :
    (ofMatrices s rows inner cols a b r).tangentMatrix v i j =
      (ofMatrices s' rows inner cols a b r).tangentMatrix v i j := by
  rw [tangentMatrix, tangentMatrix, leftActive_ofMatrices, rightActive_ofMatrices]
  refine addTerm_congr (addTerm_congr rfl fun _ => ?_) fun _ => ?_
  · exact mul_map_flatten (fun x => v.get x.identifier) Variable.value hi hj
  · exact mul_map_flatten Variable.value (fun x => v.get x.identifier) hi hj

theorem zip_tangent_perm (v : Slots F) :
    ((ofMatrices s rows inner cols a b r).results.zip
      (((ofMatrices s rows inner cols a b r).tangentMatrix v).flatten s rows cols)).Perm
    ((ofMatrices s' rows inner cols a b r).results.zip
      (((ofMatrices s' rows inner cols a b r).tangentMatrix v).flatten s' rows cols)) :=
  Matrix.zip_flatten_perm fun _ hi _ hj => tangentMatrix_ofMatrices v hi hj

variable (hd : DistinctActive (r.flatten s rows cols))
include hd

theorem scatter_zip_flatten {ws ws' : List F} (v : Slots F)
    (hws : ws.length = rows * cols)
    (hp : ((r.flatten s rows cols).zip ws).Perm ((r.flatten s' rows cols).zip ws')) :
    v.scatter ((r.flatten s rows cols).zip ws) = v.scatter ((r.flatten s' rows cols).zip ws') := by
  refine Slots.scatter_perm v hp ?_
  rwa [List.map_fst_zip]
  rw [hws, Matrix.length_flatten]

theorem tangent_ofMatrices (v : Slots F) : (ofMatrices s rows inner cols a b r).tangent v =
    (ofMatrices s' rows inner cols a b r).tangent v :=
  scatter_zip_flatten hd v (Matrix.length_flatten ..) (zip_tangent_perm v)

theorem ofList_taken (v : Slots F) (hi : i < rows) (hj : j < cols) :
    Matrix.ofList s rows cols (v.taken (r.flatten s rows cols)) i j = v.slot (r i j) := by
  rw [Slots.taken_eq_map v _ hd]
  exact ofList_map_flatten hi hj

theorem scatter_zero (v : Slots F) :
    v.scatter ((r.flatten s rows cols).map fun id => (id, 0)) =
      v.scatter ((r.flatten s' rows cols).map fun id => (id, 0)) := by
  refine Slots.scatter_perm v ((Matrix.flatten_perm ..).map _) ?_
  rw [List.map_map]
  exact (List.map_id (r.flatten s rows cols)).symm ▸ hd

end Scalar

section Exact

variable [ExactScalar F]

theorem accumulateIf_congr {v w : Slots F} {active active' : Bool} {us ws : List (Identifier × F)}
    (hv : v = w) (hactive : active = active') (hp : us.Perm ws) :
    (if active then v.accumulate us else v) = if active' then w.accumulate ws else w := by
  rw [hv, hactive, Slots.accumulate_perm w hp]

theorem adjoint_ofMatrices (hd : DistinctActive (r.flatten s rows cols)) (v : Slots F) :
    (ofMatrices s rows inner cols a b r).adjoint v =
      (ofMatrices s' rows inner cols a b r).adjoint v := by
  have hd' : DistinctActive (r.flatten s' rows cols) := hd.perm (Matrix.flatten_perm ..)
  have htaken {i j : Nat} (hi : i < rows) (hj : j < cols) :
      Matrix.ofList s rows cols (v.taken (r.flatten s rows cols)) i j =
        Matrix.ofList s' rows cols (v.taken (r.flatten s' rows cols)) i j :=
    (ofList_taken hd v hi hj).trans (ofList_taken hd' v hi hj).symm
  have hleft : ((ofMatrices s rows inner cols a b r).leftShare
      (.ofList s rows cols (v.taken (r.flatten s rows cols)))).Perm
      ((ofMatrices s' rows inner cols a b r).leftShare
        (.ofList s' rows cols (v.taken (r.flatten s' rows cols)))) := by
    simp only [leftShare, ofMatrices, Matrix.map_flatten]
    refine Matrix.zip_flatten_perm fun i hi l hl => Matrix.mul_congr fun j hj => ⟨htaken hi hj, ?_⟩
    exact (ofList_map_flatten hl hj).trans (ofList_map_flatten hl hj).symm
  have hright : ((ofMatrices s rows inner cols a b r).rightShare
      (.ofList s rows cols (v.taken (r.flatten s rows cols)))).Perm
      ((ofMatrices s' rows inner cols a b r).rightShare
        (.ofList s' rows cols (v.taken (r.flatten s' rows cols)))) := by
    simp only [rightShare, ofMatrices, Matrix.map_flatten]
    refine Matrix.zip_flatten_perm fun l hl j hj => Matrix.mul_congr fun i hi => ⟨?_, htaken hi hj⟩
    exact (ofList_map_flatten hi hl).trans (ofList_map_flatten hi hl).symm
  exact accumulateIf_congr (accumulateIf_congr (scatter_zero hd v) leftActive_ofMatrices hleft)
    rightActive_ofMatrices hright

end Exact

/-- Whatever replays find of the factors, the two records do the same to the vectors. -/
structure SameEffect [Scalar F] (traits : Traits) (c : Call F) (olds : List F) (c' : Call F)
    (olds' : List F) : Prop where
  tangent_eq : ∀ q v, (c'.seen traits q).tangent v = (c.seen traits q).tangent v
  adjoint_eq : ∀ q v, (c'.seen traits q).adjoint v = (c.seen traits q).adjoint v
  writes_eq : ∀ q (v : Vectors F),
    v.writePrimals ((c'.seen traits q).results.zip (c'.seen traits q).values) =
      v.writePrimals ((c.seen traits q).results.zip (c.seen traits q).values)
  rewound_eq : ∀ v, c'.rewound traits olds' v = c.rewound traits olds v

theorem SameEffect.refl [Scalar F] (traits : Traits) (c : Call F) (olds : List F) :
    SameEffect traits c olds c olds :=
  ⟨fun _ _ => rfl, fun _ _ => rfl, fun _ _ => rfl, fun _ => rfl⟩

theorem writePrimals_congr [Scalar F] {us ws : List (Identifier × F)} (v : Vectors F)
    (h : ∀ p : Slots F, p.scatter us = p.scatter ws) : v.writePrimals us = v.writePrimals ws := by
  rw [Vectors.writePrimals, Vectors.writePrimals]
  exact congrArg (Vectors.mk v.adjoints) (congrArg (Option.map · v.primals) (funext h))

theorem sameEffect_ofMatrices [ExactScalar F] (traits : Traits)
    (hd : DistinctActive (r.flatten s rows cols)) (o : Matrix F) :
    SameEffect traits (ofMatrices s rows inner cols a b r) (o.flatten s rows cols)
      (ofMatrices s' rows inner cols a b r) (o.flatten s' rows cols) := by
  have hd' : DistinctActive (r.flatten s' rows cols) := hd.perm (Matrix.flatten_perm ..)
  refine ⟨fun q v => ?_, fun q v => ?_, fun q v => ?_, fun v => ?_⟩
  · obtain ⟨a', b', hseen⟩ := exists_seen_ofMatrices rows inner cols a b r traits q
    rw [hseen, hseen]
    exact tangent_ofMatrices hd' v
  · obtain ⟨a', b', hseen⟩ := exists_seen_ofMatrices rows inner cols a b r traits q
    rw [hseen, hseen]
    exact adjoint_ofMatrices hd' v
  · obtain ⟨a', b', hseen⟩ := exists_seen_ofMatrices rows inner cols a b r traits q
    rw [hseen, hseen]
    exact writePrimals_congr v fun p =>
      scatter_zip_flatten hd' p (Matrix.length_flatten ..) zip_values_perm
  · rw [rewound, rewound]
    split
    · exact writePrimals_congr v fun p => scatter_zip_flatten hd' p (Matrix.length_flatten ..)
        (Matrix.zip_flatten_perm fun _ _ _ _ => rfl)
    · rfl

end Call

end Product

end Autodiff
