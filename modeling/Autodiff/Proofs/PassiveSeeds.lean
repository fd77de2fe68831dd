import Autodiff.Proofs.Bounds
import Autodiff.Proofs.Decomposition
import Autodiff.Proofs.Replays
import Autodiff.Proofs.Statelessness
import Autodiff.Proofs.Usage

namespace Autodiff

variable {F : Type}

structure Slots.Matches (n : Identifier) (v w : Slots F) : Prop where
  rest_eq : w.rest = v.rest
  le : n ≤ v.rest.length

def SameWrite (u w : Identifier × F) : Prop := u.1 = w.1 ∧ (u.1 ≠ passive → u.2 = w.2)

variable [Scalar F]

namespace Slots.Matches

variable {n id : Identifier} {v w : Slots F}

theorem slot_eq (h : Matches n v w) (hid : id ≠ passive) : w.slot id = v.slot id := by
  cases id with
  | zero => exact absurd rfl hid
  | succ k => exact congrArg (List.getD · k 0) h.rest_eq

omit [Scalar F] in
theorem get_eq (h : Matches n v w) (hid : id ≠ passive) (hle : id ≤ n) : w.get id = v.get id := by
  cases id with
  | zero => exact absurd rfl hid
  | succ k =>
    have hlt : k < v.rest.length := hle.trans h.le
    change w.rest.getD k w.first = v.rest.getD k v.first
    rw [h.rest_eq, List.getD_eq_getElem _ _ hlt, List.getD_eq_getElem _ _ hlt]

theorem rest_ensure (h : w.rest = v.rest) (id : Identifier) :
    (w.ensure id).rest = (v.ensure id).rest := by
  have hsize : w.size = v.size := by rw [size, size, h]
  rw [ensure, ensure, hsize]
  split
  · exact h
  · rw [resize, resize, h]

theorem of_rest_eq (h : w.rest = v.rest) (n : Identifier) :
    Matches n (v.ensure n) (w.ensure n) := by
  have hsize : n + 1 ≤ (v.ensure n).size := by
    rw [size_ensure]
    exact Nat.le_max_right _ _
  exact ⟨rest_ensure h n, Nat.le_of_succ_le_succ hsize⟩

theorem set (h : Matches n v w) (hid : id ≠ passive) (x : F) :
    Matches n (v.set id x) (w.set id x) := by
  cases id with
  | zero => exact absurd rfl hid
  | succ k =>
    constructor
    · change (w.ensure (k + 1)).rest.set k x = (v.ensure (k + 1)).rest.set k x
      rw [rest_ensure h.rest_eq]
    · have hsize : v.size ≤ (v.set (k + 1) x).size := by
        rw [size_set]
        exact Nat.le_max_left _ _
      exact h.le.trans (Nat.le_of_succ_le_succ hsize)

theorem modify (h : Matches n v w) (hid : id ≠ passive) (f : F → F) :
    Matches n (v.modify id f) (w.modify id f) := by
  rw [Slots.modify, Slots.modify, h.slot_eq hid]
  exact h.set hid _

variable {us ws : List (Identifier × F)}

omit [Scalar F] in
theorem foldl {step : Slots F → Identifier × F → Slots F}
    (hstep : ∀ {v w : Slots F} {a b : Identifier × F}, Matches n v w → SameWrite a b →
      Matches n (step v a) (step w b))
    (h : Matches n v w) (hws : List.Forall₂ SameWrite us ws) :
    Matches n (us.foldl step v) (ws.foldl step w) := by
  induction hws generalizing v w with
  | nil => exact h
  | cons hab _ ih => exact ih (hstep h hab)

theorem scatter (h : Matches n v w) (hws : List.Forall₂ SameWrite us ws) :
    Matches n (v.scatter us) (w.scatter ws) := by
  apply foldl (fun {v w a b} h hab => ?_) h hws
  rw [← hab.1]
  split
  case isTrue => exact h
  case isFalse hid => exact hab.2 hid ▸ h.set hid a.2

theorem accumulate (h : Matches n v w) (hws : List.Forall₂ SameWrite us ws) :
    Matches n (v.accumulate us) (w.accumulate ws) := by
  apply foldl (fun {v w a b} h hab => ?_) h hws
  rw [← hab.1]
  split
  case isTrue => exact h
  case isFalse hid => exact hab.2 hid ▸ h.modify hid _

theorem clear (h : Matches n v w) (ids : List Identifier) :
    Matches n (v.scatter (ids.map fun id => (id, 0))) (w.scatter (ids.map fun id => (id, 0))) :=
  h.scatter (List.forall₂_same.mpr fun _ _ => ⟨rfl, fun _ => rfl⟩)

theorem taken (h : Matches n v w) {ids : List Identifier} {k : Nat}
    (hid : ids.getD k passive ≠ passive) : (w.taken ids).getD k 0 = (v.taken ids).getD k 0 := by
  induction ids generalizing v w k with
  | nil => rfl
  | cons id ids ih =>
    cases k with
    | zero => exact h.slot_eq hid
    | succ k => exact ih (h.clear [id]) hid

theorem gathered (h : Matches n v w) {xs : List (Variable F)}
    (hle : ∀ x ∈ xs, x.identifier ≤ n) {k : Nat}
    (hid : (xs.map Variable.identifier).getD k passive ≠ passive) :
    (xs.map fun x => w.get x.identifier).getD k 0 =
      (xs.map fun x => v.get x.identifier).getD k 0 := by
  simp only [List.getD_eq_getElem?_getD, List.getElem?_map] at hid ⊢
  cases hk : xs[k]? with
  | none => rfl
  | some x =>
    rw [hk] at hid
    exact h.get_eq hid (hle x (List.mem_of_getElem? hk))

end Slots.Matches

namespace Matrix

theorem addProducts_congr {x x' y y' : Nat → F} {places : List Nat}
    (h : ∀ l ∈ places, x l = x' l ∧ y l = y' l) (sum : F) :
    addProducts x y sum places = addProducts x' y' sum places := by
  induction places generalizing sum with
  | nil => rfl
  | cons l places ih =>
    obtain ⟨hx, hy⟩ := h l List.mem_cons_self
    rw [addProducts, List.foldl_cons, hx, hy]
    exact ih (fun l hl => h l (List.mem_cons_of_mem _ hl)) _

theorem mul_congr {rows inner cols i j : Nat} {p p' q q' : Matrix F}
    (h : ∀ l < inner, p i l = p' i l ∧ q l j = q' l j) :
    mul rows inner cols p q i j = mul rows inner cols p' q' i j := by
  rw [mul, mul]
  split
  · exact addProducts_congr (fun l hl => h l (List.mem_range.mp hl)) 0
  · cases inner with
    | zero => rfl
    | succ inner =>
      obtain ⟨hp, hq⟩ := h 0 (Nat.succ_pos _)
      rw [dot, dot, hp, hq]
      apply addProducts_congr
      intro l hl
      obtain ⟨k, hk, rfl⟩ := List.mem_map.mp hl
      exact h (k + 1) (Nat.succ_lt_succ (List.mem_range.mp hk))

omit [Scalar F] in
theorem forall₂_zip_flatten {ids : List Identifier} {p q : Matrix F} {s : MatrixOrder}
    {rows cols : Nat} (hlength : ids.length = rows * cols)
    (h : ∀ i < rows, ∀ j < cols,
      ids.getD (s.offset rows cols i j) passive ≠ passive → p i j = q i j) :
    List.Forall₂ SameWrite (ids.zip (p.flatten s rows cols)) (ids.zip (q.flatten s rows cols)) := by
  rw [← flatten_getD ids passive s rows cols hlength, zip_flatten, zip_flatten]
  cases s with
  | byRow =>
    simp only [flatten, List.forall₂_map_left_iff, List.forall₂_map_right_iff, List.forall₂_same]
    intro ij hij
    obtain ⟨hi, hj⟩ := mem_indexPairs.mp hij
    exact ⟨rfl, h _ hi _ hj⟩
  | byColumn =>
    simp only [flatten, List.forall₂_map_left_iff, List.forall₂_map_right_iff, List.forall₂_same]
    intro ji hji
    obtain ⟨hj, hi⟩ := mem_indexPairs.mp hji
    exact ⟨rfl, h _ hi _ hj⟩

end Matrix

namespace Product

omit [Scalar F] in
theorem any_isActive {xs : List (Variable F)} {k : Nat}
    (h : (xs.map Variable.identifier).getD k passive ≠ passive) :
    xs[k]?.any Variable.isActive = true := by
  rw [List.getD_eq_getElem?_getD, List.getElem?_map] at h
  cases hx : xs[k]? with
  | none =>
    rw [hx] at h
    exact absurd rfl h
  | some x =>
    rw [hx] at h
    simpa [Variable.isActive] using h

section ActiveAt

variable {s : MatrixOrder} {n k m i j l : Nat} {a b : List (Variable F)} (hl : l < k)
include hl

omit [Scalar F] in
theorem isActiveAt_of_left
    (h : (a.map Variable.identifier).getD (s.offset n k i l) passive ≠ passive) :
    isActiveAt s n k m a b i j = true := by
  rw [isActiveAt, List.any_eq_true]
  exact ⟨l, List.mem_range.mpr hl, Bool.or_eq_true_iff.mpr (.inl (any_isActive h))⟩

omit [Scalar F] in
theorem isActiveAt_of_right
    (h : (b.map Variable.identifier).getD (s.offset k m l j) passive ≠ passive) :
    isActiveAt s n k m a b i j = true := by
  rw [isActiveAt, List.any_eq_true]
  exact ⟨l, List.mem_range.mpr hl, Bool.or_eq_true_iff.mpr (.inr (any_isActive h))⟩

end ActiveAt

def AllActive (ids : List Identifier) (count : Nat) (place : Nat → Nat) : Prop :=
  ids ≠ [] → ∀ l < count, ids.getD (place l) passive ≠ passive

instance (ids : List Identifier) (count : Nat) (place : Nat → Nat) :
    Decidable (AllActive ids count place) :=
  inferInstanceAs (Decidable (_ → _))

def Unmixed : (schema (F := F)).Record → Prop
  | ⟨_, code, n, k, m, a, b, y, _⟩ =>
    let s := MatrixOrder.ofCode code
    ∀ i < n, ∀ j < m, y.identifiers.items.getD (s.offset n m i j) passive ≠ passive →
      AllActive a.identifiers.items k (s.offset n k i) ∧
      AllActive b.identifiers.items k (s.offset k m · j)

instance : DecidablePred (Unmixed (F := F)) := fun ⟨_, _, n, _, m, _, _, _, _⟩ =>
  inferInstanceAs (Decidable (∀ i < n, ∀ j < m, _ → _))

namespace Call

variable {c : Call F} {n : Identifier} {v w : Slots F}

def Unmixed (c : Call F) : Prop :=
  ∀ i < c.rows, ∀ j < c.cols,
    c.results.getD (c.order.offset c.rows c.cols i j) passive ≠ passive →
    (c.leftActive = true → ∀ l < c.inner, (c.left.map Variable.identifier).getD
      (c.order.offset c.rows c.inner i l) passive ≠ passive) ∧
    (c.rightActive = true → ∀ l < c.inner, (c.right.map Variable.identifier).getD
      (c.order.offset c.inner c.cols l j) passive ≠ passive)

omit [Scalar F] in
theorem Unmixed.seen (h : c.Unmixed) (traits : Traits) (q : Identifier → F) :
    (c.seen traits q).Unmixed := by
  rw [Call.seen]
  split
  · simpa only [Unmixed, leftActive, rightActive, Variable.map_identifier_seen,
      Variable.any_isActive_seen] using h
  · exact h

omit [Scalar F] in
theorem Settled.seen (h : c.Settled) (traits : Traits) (q : Identifier → F) :
    (c.seen traits q).Settled := by
  rw [Call.seen]
  split
  · simpa only [Settled, isActiveAt, List.getElem?_map, Option.any_map, Function.comp_def,
      Variable.isActive_seen] using h
  · exact h

omit [Scalar F] in
theorem exists_of_mem_seen {traits : Traits} {q : Identifier → F} {x : Variable F}
    (hx : x ∈ (c.seen traits q).left ++ (c.seen traits q).right) :
    ∃ y ∈ c.left ++ c.right, x.identifier = y.identifier := by
  rw [Call.seen] at hx
  split at hx
  · rw [← List.map_append] at hx
    obtain ⟨y, hy, rfl⟩ := List.mem_map.mp hx
    exact ⟨y, hy, Variable.identifier_seen q y⟩
  · exact ⟨x, hx, rfl⟩

theorem addTerm_congr {active : Bool} {sum sum' term term' : Matrix F} {i j : Nat}
    (hsum : sum i j = sum' i j) (hterm : active = true → term i j = term' i j) :
    addTerm active sum term i j = addTerm active sum' term' i j := by
  cases active with
  | false => exact hsum
  | true => exact congrArg₂ (· + ·) hsum (hterm rfl)

theorem tangent_matches (hc : c.Fits) (hunmixed : c.Unmixed)
    (hle : ∀ x ∈ c.left ++ c.right, x.identifier ≤ n) (h : v.Matches n w) :
    (c.tangent v).Matches n (c.tangent w) := by
  refine h.scatter (Matrix.forall₂_zip_flatten hc.results fun i hi j hj hactive => ?_)
  obtain ⟨hleft, hright⟩ := hunmixed i hi j hj hactive
  refine addTerm_congr (addTerm_congr rfl fun hl => Matrix.mul_congr fun l hlt => ?_) fun hr =>
    Matrix.mul_congr fun l hlt => ?_
  · refine ⟨(h.gathered (fun x hx => hle x (List.mem_append_left _ hx)) ?_).symm, rfl⟩
    exact hleft hl l hlt
  · refine ⟨rfl, (h.gathered (fun x hx => hle x (List.mem_append_right _ hx)) ?_).symm⟩
    exact hright hr l hlt

theorem adjoint_matches (hc : c.Fits) (hsettled : c.Settled) (h : v.Matches n w) :
    (c.adjoint v).Matches n (c.adjoint w) := by
  have htaken : ∀ i < c.rows, ∀ j < c.cols,
      isActiveAt c.order c.rows c.inner c.cols c.left c.right i j = true →
      Matrix.ofList c.order c.rows c.cols (v.taken c.results) i j =
        Matrix.ofList c.order c.rows c.cols (w.taken c.results) i j :=
    fun i hi j hj hactive => (h.taken (hsettled i hi j hj hactive)).symm
  have hcleared := h.clear c.results
  unfold adjoint
  -- An active element adds up adjoints of active results only.
  have hleft : List.Forall₂ SameWrite
      (c.leftShare (.ofList c.order c.rows c.cols (v.taken c.results)))
      (c.leftShare (.ofList c.order c.rows c.cols (w.taken c.results))) := by
    have hlength : (c.left.map Variable.identifier).length = c.rows * c.inner := by
      rw [List.length_map, hc.left]
    apply Matrix.forall₂_zip_flatten hlength
    intro i hi l hl hactive
    apply Matrix.mul_congr
    intro j hj
    exact ⟨htaken i hi j hj (isActiveAt_of_left hl hactive), rfl⟩
  have hright : List.Forall₂ SameWrite
      (c.rightShare (.ofList c.order c.rows c.cols (v.taken c.results)))
      (c.rightShare (.ofList c.order c.rows c.cols (w.taken c.results))) := by
    have hlength : (c.right.map Variable.identifier).length = c.inner * c.cols := by
      rw [List.length_map, hc.right]
    apply Matrix.forall₂_zip_flatten hlength
    intro l hl j hj hactive
    apply Matrix.mul_congr
    intro i hi
    exact ⟨rfl, htaken i hi j hj (isActiveAt_of_right hl hactive)⟩
  have hadded : Slots.Matches n
      (if c.leftActive then (v.scatter (c.results.map fun id => (id, 0))).accumulate
        (c.leftShare (.ofList c.order c.rows c.cols (v.taken c.results)))
        else v.scatter (c.results.map fun id => (id, 0)))
      (if c.leftActive then (w.scatter (c.results.map fun id => (id, 0))).accumulate
        (c.leftShare (.ofList c.order c.rows c.cols (w.taken c.results)))
        else w.scatter (c.results.map fun id => (id, 0))) := by
    split
    · exact hcleared.accumulate hleft
    · exact hcleared
  dsimp only
  split
  · exact hadded.accumulate hright
  · exact hadded

end Call

end Product

open Product

theorem Record.Stores.unmixed [LawfulCells F] {record : Record F} {traits : Traits} {token : Token}
    {c : Call F} {olds : List F} (h : record.Stores traits token c olds)
    (hunmixed : ∀ a ∈ record.restored traits schema, Product.Unmixed a) : c.Unmixed := by
  obtain ⟨activity, a, b, y, hrestored, ha, hb, hy⟩ := h.restored
  have hall := hunmixed _ hrestored
  simp only [Product.Unmixed, Call.toRecord, ofCode_code, ha, hb, hy] at hall
  have hne {xs : List (Variable F)} (hactive : xs.any Variable.isActive = true) :
      xs.map Variable.identifier ≠ [] := by
    rintro hnil
    rw [List.map_eq_nil_iff.mp hnil] at hactive
    cases hactive
  intro i hi j hj hactive
  obtain ⟨hleft, hright⟩ := hall i hi j hj hactive
  refine ⟨fun hl => ?_, fun hr => ?_⟩
  · rw [if_pos hl] at hleft
    exact hleft (hne hl)
  · rw [if_pos hr] at hright
    exact hright (hne hr)

namespace Statement

variable {st : Statement F} {n : Identifier} {count : Nat} {v w : Slots F}

theorem tangent_eq (hst : st.Grounded) (hwithin : st.Within n count) (h : v.Matches n w) :
    st.tangent w = st.tangent v := by
  have hfold (args : List (Identifier × F)) (hargs : ∀ a ∈ args, a.1 ≠ passive ∧ a.1 ≤ n) (x : F) :
      args.foldl (fun sum arg => sum + arg.2 * w.get arg.1) x =
        args.foldl (fun sum arg => sum + arg.2 * v.get arg.1) x := by
    induction args generalizing x with
    | nil => rfl
    | cons a args ih =>
      obtain ⟨hne, hle⟩ := hargs a List.mem_cons_self
      rw [List.foldl_cons, List.foldl_cons, h.get_eq hne hle]
      exact ih (fun a ha => hargs a (List.mem_cons_of_mem _ ha)) _
  exact hfold st.arguments (fun a ha => ⟨hst.arguments_ne a ha, hwithin.arguments_le a ha⟩) 0

theorem distribute_matches (hst : st.Grounded) (adjoint : F) (h : v.Matches n w) :
    (st.distribute adjoint v).Matches n (st.distribute adjoint w) := by
  have hfold (args : List (Identifier × F)) (hargs : ∀ a ∈ args, a.1 ≠ passive) {v w : Slots F}
      (h : v.Matches n w) :
      Slots.Matches n (args.foldl (fun v arg => v.modify arg.1 (· + arg.2 * adjoint)) v)
        (args.foldl (fun v arg => v.modify arg.1 (· + arg.2 * adjoint)) w) := by
    induction args generalizing v w with
    | nil => exact h
    | cons a args ih =>
      exact ih (fun a ha => hargs a (List.mem_cons_of_mem _ ha))
        (h.modify (hargs a List.mem_cons_self) _)
  exact hfold st.arguments hst.arguments_ne h

theorem propagate_matches (hst : st.Grounded) (hwithin : st.Within n count)
    (hout : st.output ≠ passive) (h : v.Matches n w) :
    (st.propagate v).Matches n (st.propagate w) := by
  rw [propagate, propagate, h.get_eq hout hwithin.output_le]
  split
  · exact h
  · exact distribute_matches hst _ (h.set hout 0)

end Statement

namespace Tape

def recordOf (t : Tape F) (st : Statement F) : Option (Record F) :=
  match st.kind with
  | .external k => t.records[k]?
  | _ => none

structure Beside (P : Prop) (base t u : Tape F) : Prop where
  left : base.SameRecording t
  right : base.SameRecording u
  primals_eq : u.vectors.primals = t.vectors.primals
  lent_left : t.pool.lent = 0
  lent_right : u.pool.lent = 0
  adjoints : P → t.vectors.adjoints.Matches base.issuer.largest u.vectors.adjoints

namespace Beside

variable {P : Prop} {base t u : Tape F}

theorem replace (h : Beside P base t u) {v w : Vectors F} {pool pool' : Pool F}
    (hv : v.hasPrimals = t.vectors.hasPrimals) (hw : w.primals = v.primals)
    (hl : pool.lent = 0) (hl' : pool'.lent = 0)
    (ha : P → v.adjoints.Matches base.issuer.largest w.adjoints) :
    Beside P base { t with vectors := v, pool := pool } { u with vectors := w, pool := pool' } := by
  have hw' : w.hasPrimals = base.hasPrimals := by
    rw [Vectors.hasPrimals, hw]
    exact hv.trans h.left.hasPrimals_eq
  obtain ⟨hl₁, hl₂, hl₃, hl₄, hl₅⟩ := h.left
  obtain ⟨hr₁, hr₂, hr₃, hr₄, -⟩ := h.right
  exact ⟨⟨hl₁, hl₂, hl₃, hl₄, hv.trans hl₅⟩, ⟨hr₁, hr₂, hr₃, hr₄, hw'⟩, hw, hl, hl', ha⟩

theorem primal_eq (h : Beside P base t u) : u.vectors.primal = t.vectors.primal := by
  funext id
  rw [Vectors.primal, Vectors.primal, h.primals_eq]

end Beside

end Tape

namespace Traced

open Tape

variable {P : Prop} {kernels : Kernels F} {token : Token} {base : Tape F} {s s' : Traced F}
  {st : Statement F}

theorem undoPrimal_beside (st : Statement F) (h : Beside P base s.tape s'.tape) :
    Beside P base (undoPrimal st s.tape) (undoPrimal st s'.tape) := by
  rw [undoPrimal, undoPrimal, h.left.traits_eq, h.right.traits_eq]
  split
  · refine h.replace (Vectors.hasPrimals_map ..) ?_ h.lent_left h.lent_right h.adjoints
    exact congrArg (Option.map st.undo) h.primals_eq
  · exact h

variable [LawfulCells F] (hk : kernels token = some Product.kernel)
include hk

section Replay

variable {k : Nat} {record : Record F} {c : Call F} {olds : List F}
  (hr : base.records[k]? = some record) (hc : record.Stores base.traits token c olds)
  (h : Beside P base s.tape s'.tape)
include hr hc h

theorem replay_forward_beside (hunmixed : P → c.Unmixed)
    (hle : ∀ x ∈ c.left ++ c.right, x.identifier ≤ base.issuer.largest) :
    Yields (s.replay kernels Kernel.forward k) fun s₁ =>
      Yields (s'.replay kernels Kernel.forward k) fun s₁' =>
        Beside P base s₁.tape s₁'.tape := by
  -- Both replays find the same primals, so they see the same call.
  have hagree : base.hasPrimals = true →
      (c.seen base.traits s.tape.vectors.primal).Agrees s.tape.vectors.primal :=
    fun hp => Call.seen_agrees hp
  have hseen := hc.seen s.tape.vectors.primal
  have hunmixed' (hP : P) := (hunmixed hP).seen base.traits s.tape.vectors.primal
  have hle' : ∀ x ∈ (c.seen base.traits s.tape.vectors.primal).left ++
      (c.seen base.traits s.tape.vectors.primal).right, x.identifier ≤ base.issuer.largest := by
    intro x hx
    obtain ⟨y, hy, hid⟩ := Call.exists_of_mem_seen hx
    exact hid ▸ hle y hy
  generalize c.seen base.traits s.tape.vectors.primal = d at hagree hseen hunmixed' hle'
  have hleft := replay_forward_writes hk h.lent_left (h.left.records_eq ▸ hr)
    (h.left.traits_eq ▸ hseen) (h.left.hasPrimals_eq ▸ hagree)
  have hright := replay_forward_writes hk h.lent_right (h.right.records_eq ▸ hr)
    (h.right.traits_eq ▸ hseen) (by rw [h.right.hasPrimals_eq, h.primal_eq]; exact hagree)
  refine hleft.mono ?_
  rintro s₁ ⟨pool, hl, hs₁⟩
  refine hright.mono ?_
  rintro s₁' ⟨pool', hl', hs₁'⟩
  rw [hs₁, hs₁']
  refine h.replace (Vectors.hasPrimals_writePrimals ..) ?_ hl hl' fun hP => ?_
  · exact congrArg (Option.map _) h.primals_eq
  · exact Call.tangent_matches hseen.fits (hunmixed' hP) hle' (h.adjoints hP)

theorem replay_reverse_beside (hsettled : c.Settled) :
    Yields (s.replay kernels Kernel.reverse k) fun s₁ =>
      Yields (s'.replay kernels Kernel.reverse k) fun s₁' =>
        Beside P base s₁.tape s₁'.tape := by
  have hrewound : (c.rewound base.traits olds s'.tape.vectors).primals =
      (c.rewound base.traits olds s.tape.vectors).primals := by
    rw [Call.rewound, Call.rewound]
    split
    · exact congrArg (Option.map _) h.primals_eq
    · exact h.primals_eq
  have hprimal : (c.rewound base.traits olds s'.tape.vectors).primal =
      (c.rewound base.traits olds s.tape.vectors).primal := by
    funext id
    rw [Vectors.primal, Vectors.primal, hrewound]
  generalize hq : (c.rewound base.traits olds s.tape.vectors).primal = q at hprimal
  have hagree : base.hasPrimals = true → (c.seen base.traits q).Agrees q :=
    fun hp => Call.seen_agrees hp
  have hsame (v : Vectors F) :
      (c.seen base.traits q).rewound base.traits olds v = c.rewound base.traits olds v := by
    rw [Call.rewound, Call.rewound, Call.results_seen]
  have hseen := hc.seen q
  have hsettled' := hsettled.seen base.traits q
  generalize c.seen base.traits q = d at hagree hsame hseen hsettled'
  have hleft := replay_reverse_writes hk h.lent_left (h.left.records_eq ▸ hr)
    (h.left.traits_eq ▸ hseen) (by
      rw [h.left.hasPrimals_eq, h.left.traits_eq, hsame, hq]
      exact hagree)
  have hright := replay_reverse_writes hk h.lent_right (h.right.records_eq ▸ hr)
    (h.right.traits_eq ▸ hseen) (by
      rw [h.right.hasPrimals_eq, h.right.traits_eq, hsame, hprimal]
      exact hagree)
  refine hleft.mono ?_
  rintro s₁ ⟨pool, hl, hs₁⟩
  refine hright.mono ?_
  rintro s₁' ⟨pool', hl', hs₁'⟩
  rw [hs₁, hs₁', h.left.traits_eq, h.right.traits_eq, hsame, hsame]
  refine h.replace ?_ hrewound hl hl' fun hP => ?_
  · rw [Call.rewound]
    split
    · exact Vectors.hasPrimals_writePrimals ..
    · rfl
  · exact Call.adjoint_matches hseen.fits hsettled' (h.adjoints hP)

end Replay

variable (hbase : base.Bounded token) (hst : st.Grounded)
  (hwithin : st.Within base.issuer.largest base.records.length)
  (h : Beside P base s.tape s'.tape)
include hbase hst hwithin h

theorem tangentStep_beside (hunmixed : P →
      ∀ record ∈ base.recordOf st, ∀ a ∈ record.restored base.traits schema, Product.Unmixed a) :
    Yields (tangentStep kernels s st) fun s₁ => Yields (tangentStep kernels s' st) fun s₁' =>
      Beside P base s₁.tape s₁'.tape := by
  have hredo : s'.tape.vectors.primals.map st.redo = s.tape.vectors.primals.map st.redo :=
    congrArg (Option.map st.redo) h.primals_eq
  rw [tangentStep, tangentStep]
  cases hkind : st.kind with
  | elementary =>
    refine .ok (.ok (h.replace (Vectors.hasPrimals_map ..) hredo h.lent_left h.lent_right ?_))
    intro hP
    have hout := hst.output_ne (by simp [hkind])
    dsimp only
    rw [Statement.tangent_eq hst hwithin (h.adjoints hP)]
    exact (h.adjoints hP).set hout _
  | input =>
    exact .ok (.ok (h.replace (Vectors.hasPrimals_map ..) hredo h.lent_left h.lent_right h.adjoints))
  | external k =>
    have hlt := hwithin.record_lt k hkind
    obtain ⟨c, olds, hstores, -, hle⟩ := hbase.records _ (List.getElem_mem hlt)
    have hr : base.records[k]? = some base.records[k] := List.getElem?_eq_getElem hlt
    have hof : base.recordOf st = some base.records[k] := by simp only [recordOf, hkind, hr]
    exact replay_forward_beside hk hr hstores h (fun hP => hstores.unmixed (hunmixed hP _ hof)) hle

theorem adjointStep_beside :
    Yields (adjointStep kernels s st) fun s₁ => Yields (adjointStep kernels s' st) fun s₁' =>
      Beside P base s₁.tape s₁'.tape := by
  have hundone := undoPrimal_beside st h
  rw [adjointStep, adjointStep]
  cases hkind : st.kind with
  | elementary =>
    have hout := hst.output_ne (by simp [hkind])
    refine .ok (.ok (hundone.replace rfl hundone.primals_eq hundone.lent_left hundone.lent_right ?_))
    exact fun hP => Statement.propagate_matches hst hwithin hout (hundone.adjoints hP)
  | input => exact .ok (.ok hundone)
  | external k =>
    have hlt := hwithin.record_lt k hkind
    obtain ⟨c, olds, hstores, hsettled, -⟩ := hbase.records _ (List.getElem_mem hlt)
    exact replay_reverse_beside hk (List.getElem?_eq_getElem hlt) hstores h hsettled

end Traced

namespace Tape

/-- No product between the two positions mixes active and passive elements in what an active result
comes from. -/
def Unmixed (t : Tape F) (start stop : Position) : Prop :=
  ∀ st ∈ t.range start stop, ∀ record ∈ t.recordOf st,
    ∀ a ∈ record.restored t.traits schema, Product.Unmixed a

instance (t : Tape F) (start stop : Position) : Decidable (t.Unmixed start stop) :=
  inferInstanceAs (Decidable (∀ _ ∈ _, _))

variable [LawfulCells F] {kernels : Kernels F} {token : Token} {t : Tape F} {w : Slots F}
  {start stop : Position}

omit [LawfulCells F] in
theorem widen_beside (P : Prop) (hidle : t.pool.lent = 0) (hw : w.rest = t.vectors.adjoints.rest) :
    Beside P t t.widen (t.withAdjoints w).widen :=
  ⟨t.widen_sameRecording, ⟨rfl, rfl, rfl, rfl, Vectors.hasPrimals_map ..⟩, rfl, hidle, hidle,
    fun _ => Slots.Matches.of_rest_eq hw _⟩

variable (hk : kernels token = some Product.kernel) (hbounded : t.Bounded token)
  (hgrounded : t.Grounded) (hidle : t.pool.lent = 0)
  (hspan : start.statements ≤ stop.statements ∧ stop.statements ≤ t.statementCount)
  (hw : w.rest = t.vectors.adjoints.rest)
include hk hbounded hgrounded hidle hspan hw

theorem tangentSweep_beside :
    Yields (t.tangentSweep kernels start stop) fun s =>
      Yields ((t.withAdjoints w).tangentSweep kernels start stop) fun s' =>
        t.Unmixed start stop → s'.tape.vectors.adjoints.rest = s.tape.vectors.adjoints.rest := by
  have hcheck : t.checkSpan start stop = .ok () := if_pos hspan
  have hcheck' : (t.withAdjoints w).checkSpan start stop = .ok () := hcheck
  rw [tangentSweep, tangentSweep, hcheck, hcheck']
  change Yields (if start.statements = stop.statements then _ else _) fun s =>
    Yields (if start.statements = stop.statements then _ else _) _
  split
  · exact .ok (.ok fun _ => hw)
  · refine (Yields.foldlM_pair (R := fun s s' : Traced F =>
      Beside (t.Unmixed start stop) t s.tape s'.tape) (fun st hst _ _ h => ?_)
      (widen_beside _ hidle hw)).mono fun s hs => hs.mono fun s' h hP => ?_
    · have hmem := mem_of_mem_range hst
      refine Traced.tangentStep_beside hk hbounded (hgrounded.log st hmem) (hbounded.log st hmem) h ?_
      exact fun hP => hP st hst
    · exact (h.adjoints hP).rest_eq

theorem adjointSweep_beside :
    Yields (t.adjointSweep kernels start stop) fun s =>
      Yields ((t.withAdjoints w).adjointSweep kernels start stop) fun s' =>
        s'.tape.vectors.adjoints.rest = s.tape.vectors.adjoints.rest := by
  have hspan' : start.statements ≤ stop.statements ∧
      stop.statements ≤ (t.withAdjoints w).statementCount := hspan
  by_cases heq : start.statements = stop.statements
  · rw [adjointSweep_of_eq hspan heq, adjointSweep_of_eq hspan' heq]
    exact .ok (.ok hw)
  · have hstep : ∀ st ∈ (t.range start stop).reverse, ∀ s s' : Traced F,
        Beside True t s.tape s'.tape → Yields (Traced.adjointStep kernels s st) fun s₁ =>
          Yields (Traced.adjointStep kernels s' st) fun s₁' => Beside True t s₁.tape s₁'.tape := by
      intro st hst s s' h
      have hmem := mem_of_mem_range (List.mem_reverse.mp hst)
      exact Traced.adjointStep_beside hk hbounded (hgrounded.log st hmem) (hbounded.log st hmem) h
    have hwiden : Beside True t (⟨t.widen, []⟩ : Traced F).tape
        (⟨(t.withAdjoints w).widen, []⟩ : Traced F).tape := widen_beside True hidle hw
    obtain ⟨s, hs, s', hs', h⟩ := Yields.foldlM_pair hstep hwiden
    rw [adjointSweep_of_ne hspan heq, adjointSweep_of_ne hspan' heq, hs]
    refine .ok ?_
    change Yields ((t.range start stop).reverse.foldlM (Traced.adjointStep kernels)
      ⟨(t.withAdjoints w).widen, []⟩ >>= _) _
    rw [hs']
    refine .ok ?_
    change ((t.withAdjoints w).settle s'.tape).vectors.adjoints.rest =
      (t.settle s.tape).vectors.adjoints.rest
    rw [adjoints_settle, adjoints_settle]
    exact (h.adjoints trivial).rest_eq

end Tape

theorem Transfer.applyAll_grounded {n : Nat} {c : Catalogue F} {r r' : Recording F}
    {xs : List (Transfer F n)} (h : r.tape.Grounded) (hr : applyAll c r xs = .ok r') :
    r'.tape.Grounded :=
  foldlM_invariant (P := fun r₁ : Recording F => r₁.tape.Grounded)
    (fun _ _ _ _ h hx => (Recording.run_records hx).leads.grounded h) h hr

namespace Recording

/-- A seed on passive variables goes nowhere. An adjoint sweep never reads it, and a tangent sweep
only where a product mixes active and passive elements. -/
theorem passive_seed_inert [LawfulCells F] {n : Nat} (policy : Policy) (kind : TapeKind)
    (c : Catalogue F) (hk : c.kernels (c.token .product) = some Product.kernel) (values : Fin n → F)
    (xs : List (Transfer F n)) (r : Recording F)
    (hr : Transfer.applyAll c (fresh policy kind values) xs = .ok r) (start stop : Position)
    (hspan : start.statements ≤ stop.statements ∧ stop.statements ≤ r.tape.statementCount)
    (x y : F) (rest : List F) :
    (∃ s s' : Traced F,
      (r.tape.withAdjoints ⟨x, rest⟩).adjointSweep c.kernels start stop = .ok s ∧
      (r.tape.withAdjoints ⟨y, rest⟩).adjointSweep c.kernels start stop = .ok s' ∧
      s'.tape.vectors.adjoints.rest = s.tape.vectors.adjoints.rest) ∧
    ∃ s s' : Traced F,
      (r.tape.withAdjoints ⟨x, rest⟩).tangentSweep c.kernels start stop = .ok s ∧
      (r.tape.withAdjoints ⟨y, rest⟩).tangentSweep c.kernels start stop = .ok s' ∧
      (r.tape.Unmixed start stop →
        s'.tape.vectors.adjoints.rest = s.tape.vectors.adjoints.rest) := by
  have hbounded : (r.tape.withAdjoints ⟨x, rest⟩).Bounded (c.token .product) :=
    (Transfer.applyAll_bounded (bounded_fresh _ policy kind values) hr).tape.withVectors rfl
  have hgrounded : (r.tape.withAdjoints ⟨x, rest⟩).Grounded := by
    have h := Transfer.applyAll_grounded (Tape.grounded_new policy kind) hr
    exact ⟨h.primal_eq, h.unused_ne, h.pending_ne, h.log⟩
  have hidle : (r.tape.withAdjoints ⟨x, rest⟩).pool.lent = 0 := Transfer.applyAll_lent_eq hr
  constructor
  · obtain ⟨s, hs, s', hs', h⟩ := Tape.adjointSweep_beside (w := ⟨y, rest⟩) hk hbounded hgrounded
      hidle hspan rfl
    exact ⟨s, s', hs, hs', h⟩
  · obtain ⟨s, hs, s', hs', h⟩ := Tape.tangentSweep_beside (w := ⟨y, rest⟩) hk hbounded hgrounded
      hidle hspan rfl
    exact ⟨s, s', hs, hs', h⟩

theorem passive_seed_inert_passiveFactor :
    ∃ (r : Recording Int) (s s' : Traced Int),
      (fresh .linear .jacobian ![3, 5, 7, 0]).run productOnly
        [.input 0, .input 1, .multiply .byRow 1 2 1 [0, 1] [2, 2] [3]] = .ok r ∧
      r.tape.Unmixed .zero r.tape.position ∧
      (r.tape.withAdjoints ⟨0, [1, 0]⟩).tangentSweep productOnly.kernels .zero r.tape.position =
        .ok s ∧
      (r.tape.withAdjoints ⟨10, [1, 0]⟩).tangentSweep productOnly.kernels .zero r.tape.position =
        .ok s' ∧
      s'.tape.vectors.adjoints.rest = s.tape.vectors.adjoints.rest := by
  have hrun : ∃ r, Transfer.applyAll productOnly (fresh .linear .jacobian ![3, 5, 7, 0])
      [.instruct (.input 0), .instruct (.input 1), .instruct (.multiply
        ⟨.byRow, 1, 2, 1, [0, 1], [2, 2], [3], rfl, rfl, rfl, List.nodup_singleton (3 : Fin 4)⟩)] =
        .ok r := ⟨_, rfl⟩
  obtain ⟨r, hr⟩ := hrun
  have hunmixed : r.tape.Unmixed .zero r.tape.position := by
    cases hr
    decide
  obtain ⟨-, s, s', hs, hs', h⟩ := passive_seed_inert .linear .jacobian productOnly rfl
    ![3, 5, 7, 0] _ r hr .zero r.tape.position ⟨Nat.zero_le _, Nat.le_refl _⟩ 0 10 [1, 0]
  refine ⟨r, s, s', ?_, hunmixed, hs, hs', h hunmixed⟩
  cases hr
  rfl

/-- A seed of ten on the passive variables adds twenty to the tangent of a product whose first factor
has an active and a passive element. -/
theorem not_passive_seed_inert_mixed :
    ∃ (r : Recording Int) (s s' : Traced Int),
      (fresh .linear .jacobian ![3, 5, 2, 0]).run productOnly
        [.input 0, .multiply .byRow 1 2 1 [0, 1] [1, 2] [3]] = .ok r ∧
      (r.tape.withAdjoints ⟨0, [1, 0]⟩).tangentSweep productOnly.kernels .zero r.tape.position =
        .ok s ∧
      (r.tape.withAdjoints ⟨10, [1, 0]⟩).tangentSweep productOnly.kernels .zero r.tape.position =
        .ok s' ∧
      s.tape.vectors.adjoints.rest = [1, 5] ∧ s'.tape.vectors.adjoints.rest = [1, 25] :=
  ⟨_, _, _, rfl, rfl, rfl, rfl, rfl⟩

end Recording

end Autodiff
