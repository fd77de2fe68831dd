import Autodiff.Kernel.Product
import Autodiff.Proofs.Argument

namespace Autodiff.Product

variable {F : Type}

structure Call (F : Type) where
  order : MatrixOrder
  rows : Nat
  inner : Nat
  cols : Nat
  left : List (Variable F)
  right : List (Variable F)
  results : List Identifier

namespace Call

def leftActive (c : Call F) : Bool := c.left.any Variable.isActive

def rightActive (c : Call F) : Bool := c.right.any Variable.isActive

structure Fits (c : Call F) : Prop where
  left : c.left.length = c.rows * c.inner
  right : c.right.length = c.inner * c.cols
  results : c.results.length = c.rows * c.cols

def Agrees (c : Call F) (p : Identifier → F) : Prop :=
  ∀ x ∈ c.left ++ c.right, x.isActive = true → p x.identifier = x.value

variable [Scalar F]

def leftMatrix (c : Call F) : Matrix F := .ofList c.order c.rows c.inner (c.left.map Variable.value)

def rightMatrix (c : Call F) : Matrix F :=
  .ofList c.order c.inner c.cols (c.right.map Variable.value)

def values (c : Call F) : List F :=
  (Matrix.mul c.rows c.inner c.cols c.leftMatrix c.rightMatrix).flatten c.order c.rows c.cols

def tangentMatrix (c : Call F) (v : Slots F) : Matrix F :=
  addTerm c.rightActive
    (addTerm c.leftActive .zero (.mul c.rows c.inner c.cols
      (.ofList c.order c.rows c.inner (c.left.map fun x => v.get x.identifier)) c.rightMatrix))
    (.mul c.rows c.inner c.cols c.leftMatrix
      (.ofList c.order c.inner c.cols (c.right.map fun x => v.get x.identifier)))

def tangent (c : Call F) (v : Slots F) : Slots F :=
  v.scatter (c.results.zip ((c.tangentMatrix v).flatten c.order c.rows c.cols))

def leftShare (c : Call F) (adjoint : Matrix F) : List (Identifier × F) :=
  (c.left.map Variable.identifier).zip
    ((Matrix.mul c.rows c.cols c.inner adjoint c.rightMatrix.transpose).flatten c.order c.rows
      c.inner)

def rightShare (c : Call F) (adjoint : Matrix F) : List (Identifier × F) :=
  (c.right.map Variable.identifier).zip
    ((Matrix.mul c.inner c.rows c.cols c.leftMatrix.transpose adjoint).flatten c.order c.inner
      c.cols)

def adjoint (c : Call F) (v : Slots F) : Slots F :=
  let adjoint := Matrix.ofList c.order c.rows c.cols (v.taken c.results)
  let v := v.scatter (c.results.map fun id => (id, 0))
  let v := if c.leftActive then v.accumulate (c.leftShare adjoint) else v
  if c.rightActive then v.accumulate (c.rightShare adjoint) else v

structure Staged (c : Call F) (olds : List F) (activity : ActivityMask)
    (a b r : Autodiff.Staged F) : Prop where
  left_active : activity.get 0 = c.leftActive
  right_active : activity.get 1 = c.rightActive
  left_identifiers : a.identifiers.items = c.left.map Variable.identifier
  left_values : a.values.items = c.left.map Variable.value
  right_identifiers : b.identifiers.items = c.right.map Variable.identifier
  right_values : b.values.items = c.right.map Variable.value
  results : r.identifiers.items = c.results
  olds : r.oldValues.items = olds

def toRecord (c : Call F) (activity : ActivityMask) (a b r : Autodiff.Staged F) :
    (schema (F := F)).Record :=
  ⟨activity, c.order.code, c.rows, c.inner, c.cols, a, b, r, ()⟩

theorem Staged.fits [LawfulCells F] {c : Call F} {olds : List F} {activity : ActivityMask}
    {a b r : Autodiff.Staged F} (h : c.Staged olds activity a b r) (hc : c.Fits)
    (ho : olds.length = c.results.length) : schema.Fits (c.toRecord activity a b r) := by
  have hli : a.identifiers.items.length = c.rows * c.inner := by
    rw [h.left_identifiers, List.length_map, hc.left]
  have hlv : a.values.items.length = c.rows * c.inner := by
    rw [h.left_values, List.length_map, hc.left]
  have hri : b.identifiers.items.length = c.inner * c.cols := by
    rw [h.right_identifiers, List.length_map, hc.right]
  have hrv : b.values.items.length = c.inner * c.cols := by
    rw [h.right_values, List.length_map, hc.right]
  have hi : r.identifiers.items.length = c.rows * c.cols := by rw [h.results, hc.results]
  have hv : r.oldValues.items.length = c.rows * c.cols := by rw [h.olds, ho, hc.results]
  exact ⟨FieldType.activity_faithful _, FieldType.natural_faithful 0 _,
    FieldType.natural_faithful 3 _, FieldType.natural_faithful 3 _, FieldType.natural_faithful 3 _,
    hli, hlv, hri, hrv, hi, hv, trivial⟩

end Call

open Call

theorem revivedValues_eq (fill : Identifier → F) (xs : List (Variable F)) (use : InputRole)
    (traits : Traits) (a : Autodiff.Staged F)
    (hids : a.identifiers.items = xs.map Variable.identifier)
    (hvals : a.values.items = xs.map Variable.value)
    (hfill : traits.hasPrimals = true → ∀ x ∈ xs, x.isActive = true → fill x.identifier = x.value) :
    Schema.revivedValues fill a (use.origin traits) =
      if use.keepsValues traits then xs.map Variable.value else [] := by
  cases hk : use.keepsValues traits with
  | false => simp [InputRole.origin, hk, Schema.revivedValues]
  | true =>
    by_cases hp : (traits.hasPrimals && use.active) = true
    · simp only [InputRole.origin, hk, hp, Bool.not_true, Bool.false_eq_true, if_false, if_true,
        Schema.revivedValues, hids, hvals, List.zipWith_map, List.zipWith_self]
      refine List.map_congr_left fun x hx => ?_
      by_cases hid : x.identifier = passive
      · rw [if_pos hid]
      · rw [if_neg hid]
        have hprimals : traits.hasPrimals = true := by simp_all
        exact hfill hprimals x hx (by simpa [Variable.isActive] using hid)
    · simp [InputRole.origin, hk, hp, Schema.revivedValues, hvals]

variable [Scalar F]

theorem ofCode_code (s : MatrixOrder) : MatrixOrder.ofCode s.code = s := by cases s <;> rfl

variable {c : Call F} {olds : List F} {activity : ActivityMask} {a b y : Autodiff.Staged F}
  {traits : Traits} {fill : Identifier → F}

structure Revived (c : Call F) (traits : Traits) (a' b' y' : Autodiff.Staged F) : Prop where
  left_identifiers : a'.identifiers.items =
    if c.leftActive then c.left.map Variable.identifier else []
  left_values : c.rightActive = true ∨ traits.hasPrimals = true →
    a'.values.items = c.left.map Variable.value
  right_identifiers : b'.identifiers.items =
    if c.rightActive then c.right.map Variable.identifier else []
  right_values : c.leftActive = true ∨ traits.hasPrimals = true →
    b'.values.items = c.right.map Variable.value
  results : y'.identifiers.items = c.results

omit [Scalar F] in
theorem revived_of_revived (h : c.Staged olds activity a b y)
    (hagree : traits.hasPrimals = true → c.Agrees fill) (rec : (schema (F := F)).Record)
    (hrec : schema.Revived traits fill (c.toRecord activity a b y) rec) :
    ∃ a' b' y', rec = c.toRecord activity a' b' y' ∧ Revived c traits a' b' y' := by
  obtain ⟨_, rfl, _, rfl, _, rfl, _, rfl, ⟨a', b', y', _⟩, rfl, hai, hav, hbi, hbv, hyi, _, _⟩ :=
    hrec
  have hleft := revivedValues_eq fill c.left ⟨activity.get 0, activity.get 1⟩ traits a
    h.left_identifiers h.left_values fun hp x hx => hagree hp x (List.mem_append_left _ hx)
  have hright := revivedValues_eq fill c.right ⟨activity.get 1, activity.get 0⟩ traits b
    h.right_identifiers h.right_values fun hp x hx => hagree hp x (List.mem_append_right _ hx)
  refine ⟨a', b', y', rfl, ?_, ?_, ?_, ?_, ?_⟩
  · rw [← h.left_active, ← h.left_identifiers]
    exact hai
  · intro hn
    refine hav.trans (hleft.trans (if_pos ?_))
    simpa [InputRole.keepsValues, h.right_active] using hn
  · rw [← h.right_active, ← h.right_identifiers]
    exact hbi
  · intro hn
    refine hbv.trans (hright.trans (if_pos ?_))
    simpa [InputRole.keepsValues, h.left_active] using hn
  · rw [← h.results]
    exact hyi

theorem tangentMatrix_eq (v : Slots F) (a' b' : Autodiff.Staged F) (m : Bool × Bool)
    (hm : m = (c.leftActive, c.rightActive))
    (hag : m.1 = true → a'.gradients.items = c.left.map fun x => v.get x.identifier)
    (hav : m.2 = true → a'.values.items = c.left.map Variable.value)
    (hbg : m.2 = true → b'.gradients.items = c.right.map fun x => v.get x.identifier)
    (hbv : m.1 = true → b'.values.items = c.right.map Variable.value) :
    addTerm m.2 (addTerm m.1 .zero (.mul c.rows c.inner c.cols
        (.ofList c.order c.rows c.inner a'.gradients.items)
        (.ofList c.order c.inner c.cols b'.values.items)))
      (.mul c.rows c.inner c.cols (.ofList c.order c.rows c.inner a'.values.items)
        (.ofList c.order c.inner c.cols b'.gradients.items)) = c.tangentMatrix v := by
  obtain ⟨m₁, m₂⟩ := m
  obtain ⟨rfl, rfl⟩ := Prod.mk.inj hm
  unfold tangentMatrix leftMatrix rightMatrix
  cases hl : c.leftActive <;> cases hr : c.rightActive <;>
    simp_all [addTerm]

variable {r base : Replay F} {fixed dynamic : List (Scalar.Cell F)} {lent : Nat}

theorem gatherIf_ensures (active : Bool) (a : Autodiff.Staged F)
    (h : r.Stands base fixed dynamic lent) :
    (gatherIf active a).Ensures r fun a' r' =>
      a'.values = a.values ∧
        (active = true → a'.gradients.items = a.identifiers.items.map base.vectors.adjoints.get) ∧
        r'.Stands base fixed dynamic lent := by
  cases active with
  | false => exact Program.ensures_pure ⟨rfl, nofun, h⟩
  | true =>
    refine (Program.gradients_ensures a.identifiers.items h).bind fun gs r' h' => ?_
    exact Program.ensures_pure ⟨rfl, fun _ => h'.1, h'.2⟩

theorem forward_body_ensures (h : c.Staged olds activity a b y)
    {a' b' y' : Autodiff.Staged F} (hr : Revived c traits a' b' y')
    (hp : base.vectors.hasPrimals = traits.hasPrimals) (hs : r.Stands base [] [] 12) :
    (forward (c.toRecord activity a' b' y')).Ensures r fun rec r' =>
      r'.Stands (base.withVectors ((base.vectors.writePrimals (c.results.zip c.values)).withAdjoints
        (c.tangent base.vectors.adjoints))) [] [] (4 * (schema.arrays rec).length) := by
  rw [toRecord, forward, ofCode_code, h.left_active, h.right_active]
  refine (gatherIf_ensures _ a' hs).bind fun a₁ r₁ h₁ => ?_
  refine (gatherIf_ensures _ b' h₁.2.2).bind fun b₁ r₂ h₂ => ?_
  have hact : (Program.act .hasPrimals).Ensures r₂ fun p r' =>
      p = traits.hasPrimals ∧ r'.Stands base [] [] 12 :=
    Program.ensures_act (.ok ⟨(congrArg (·.hasPrimals) h₂.2.2.vectors_eq).trans hp, h₂.2.2⟩)
  refine hact.bind fun p r₃ h₃ => ?_
  obtain ⟨rfl, hs₃⟩ := h₃
  have ht := tangentMatrix_eq (c := c) base.vectors.adjoints a₁ b₁ _ rfl
    (fun hl => by rw [h₁.2.1 hl, hr.left_identifiers, if_pos hl, List.map_map]; rfl)
    (fun hl => by rw [h₁.1, hr.left_values (.inl hl)])
    (fun hl => by rw [h₂.2.1 hl, hr.right_identifiers, if_pos hl, List.map_map]; rfl)
    (fun hl => by rw [h₂.1, hr.right_values (.inl hl)])
  rw [ht]
  cases hpt : traits.hasPrimals with
  | false =>
    rw [Vectors.writePrimals_of_hasPrimals_eq_false _ (hp.trans hpt)]
    refine (Program.setGradients_ensures y'.identifiers.items _ hs₃).bind fun _ r₄ h₄ => ?_
    rw [hr.results] at h₄
    exact Program.ensures_pure h₄
  | true =>
    have hvals : (Matrix.mul c.rows c.inner c.cols
        (.ofList c.order c.rows c.inner a₁.values.items)
        (.ofList c.order c.inner c.cols b₁.values.items)).flatten c.order c.rows c.cols =
        c.values := by
      rw [h₁.1, h₂.1, hr.left_values (.inr hpt), hr.right_values (.inr hpt)]
      rfl
    rw [hvals]
    refine (Schema.setPrimals_ensures y'.identifiers.items c.values hs₃).bind fun _ r₄ h₄ => ?_
    refine (Program.setGradients_ensures y'.identifiers.items _ h₄).bind fun _ r₅ h₅ => ?_
    rw [hr.results] at h₅
    exact Program.ensures_pure h₅

theorem take_ensures (a : Autodiff.Staged F) (h : r.Stands base fixed dynamic lent) :
    a.take.Ensures r fun a' r' =>
      a'.gradients.items = base.vectors.adjoints.taken a.identifiers.items ∧
        r'.Stands (base.withVectors (base.vectors.withAdjoints (base.vectors.adjoints.scatter
          (a.identifiers.items.map fun id => (id, 0))))) fixed dynamic lent :=
  (Program.takeGradients_ensures a.identifiers.items h).bind fun _ _ h' => Program.ensures_pure h'

theorem reverse_body_ensures (h : c.Staged olds activity a b y)
    {a' b' y' : Autodiff.Staged F} (hr : Revived c traits a' b' y')
    (hs : r.Stands base [] [] 12) :
    (reverse (c.toRecord activity a' b' y')).Ensures r fun rec r' =>
      r'.Stands (base.withVectors (base.vectors.withAdjoints (c.adjoint base.vectors.adjoints)))
        [] [] (4 * (schema.arrays rec).length) := by
  rw [toRecord, reverse, ofCode_code, h.left_active, h.right_active]
  refine (take_ensures y' hs).bind fun y₁ r₁ h₁ => ?_
  rw [hr.results] at h₁
  obtain ⟨hy, h₁⟩ := h₁
  rw [hy]
  have ha := hr.left_identifiers
  have hav := hr.left_values
  have hb := hr.right_identifiers
  have hbv := hr.right_values
  unfold Call.adjoint leftShare rightShare leftMatrix rightMatrix
  cases hl : c.leftActive <;> cases hrt : c.rightActive <;>
    simp only [hl, hrt, Bool.false_eq_true, if_true, if_false, true_or, forall_const] at ha hav hb hbv ⊢
  · exact Program.ensures_pure h₁
  · rw [hav]
    refine (Program.addGradients_ensures b'.identifiers.items _ h₁).bind fun _ r₂ h₂ => ?_
    rw [hb] at h₂
    exact Program.ensures_pure h₂
  · rw [hbv]
    refine (Program.addGradients_ensures a'.identifiers.items _ h₁).bind fun _ r₂ h₂ => ?_
    rw [ha] at h₂
    exact Program.ensures_pure h₂
  · rw [hav, hbv]
    refine (Program.addGradients_ensures a'.identifiers.items _ h₁).bind fun _ r₂ h₂ => ?_
    refine (Program.addGradients_ensures b'.identifiers.items _ h₂).bind fun _ r₃ h₃ => ?_
    rw [ha, hb] at h₃
    exact Program.ensures_pure h₃

section Kernel

variable [LawfulCells F]

theorem kernel_forward_ensures (h : c.Staged olds activity a b y) (hc : c.Fits)
    (ho : olds.length = c.results.length) (hidle : r.pool.lent = 0)
    (hf : r.fixed.At (schema.fixedCells (c.toRecord activity a b y)))
    (hd : r.dynamic.At (schema.dynamicCells r.traits (c.toRecord activity a b y)))
    (hp : r.vectors.hasPrimals = r.traits.hasPrimals)
    (hagree : r.traits.hasPrimals = true → c.Agrees r.vectors.primal) :
    kernel.forward.Ensures r fun _ r' =>
      r'.Stands (r.withVectors ((r.vectors.writePrimals (c.results.zip c.values)).withAdjoints
        (c.tangent r.vectors.adjoints))) [] [] 0 := by
  refine Schema.forward_ensures (h.fits hc ho) hidle hf hd fun rec r' hrec hs => ?_
  obtain ⟨a', b', y', rfl, hr⟩ := revived_of_revived h hagree rec hrec
  exact forward_body_ensures h hr hp hs

def Call.rewound (c : Call F) (traits : Traits) (olds : List F) (v : Vectors F) : Vectors F :=
  if traits.rollsBack then v.writePrimals (c.results.zip olds) else v

theorem kernel_reverse_ensures (h : c.Staged olds activity a b y) (hc : c.Fits)
    (ho : olds.length = c.results.length) (hidle : r.pool.lent = 0)
    (hf : r.fixed.At (schema.fixedCells (c.toRecord activity a b y)))
    (hd : r.dynamic.At (schema.dynamicCells r.traits (c.toRecord activity a b y)))
    (hagree : r.traits.hasPrimals = true →
      c.Agrees (c.rewound r.traits olds r.vectors).primal) :
    kernel.reverse.Ensures r fun _ r' =>
      r'.Stands (r.withVectors ((c.rewound r.traits olds r.vectors).withAdjoints
        (c.adjoint r.vectors.adjoints))) [] [] 0 := by
  have hundone : schema.undone (c.toRecord activity a b y) r.vectors =
      r.vectors.writePrimals (c.results.zip olds) := by
    rw [← h.results, ← h.olds]
    rfl
  refine Schema.reverse_ensures (h.fits hc ho) hidle hf hd fun rec r' base hbase hrec hs => ?_
  rw [hundone] at hbase
  obtain rfl : base = r.withVectors (c.rewound r.traits olds r.vectors) := hbase
  obtain ⟨a', b', y', rfl, hr⟩ := revived_of_revived h hagree rec hrec
  have hadjoints : (c.rewound r.traits olds r.vectors).adjoints = r.vectors.adjoints := by
    rw [rewound]
    split <;> rfl
  have hbody := reverse_body_ensures h hr hs
  simp only [Replay.withVectors, hadjoints] at hbody
  exact hbody

end Kernel

end Autodiff.Product
