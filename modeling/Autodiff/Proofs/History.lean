import Autodiff.Proofs.ProductReplay
import Autodiff.Tape.Sweep
/-!
The history behind a log. An event says which derivatives a recorded operation moves and which
primals it writes, and the log holds every event that a sweep has to replay.
-/

namespace Autodiff

variable {F : Type}

inductive Event (F : Type)
  | elementary (output : Identifier) (arguments : List (Identifier × F)) (value : F)
  | input (id : Identifier) (value : F)
  | product (c : Product.Call F)

namespace Event

def isLogged (traits : Traits) : Event F → Bool
  | input _ _ => traits.rollsBack
  | _ => true

theorem exists_input_of_isLogged {traits : Traits} (e : Event F) (he : e.isLogged traits = false) :
    traits.rollsBack = false ∧ ∃ id value, e = .input id value := by
  cases e with
  | input id value => exact ⟨he, id, value, rfl⟩
  | elementary => simp [isLogged] at he
  | product => simp [isLogged] at he

theorem isLogged_of_rollsBack {traits : Traits} (hb : traits.rollsBack = true) (e : Event F) :
    e.isLogged traits = true := by
  cases e with
  | input => exact hb
  | elementary => rfl
  | product => rfl

variable [Scalar F]

def writes : Event F → List (Identifier × F)
  | elementary id _ x => [(id, x)]
  | input id x => [(id, x)]
  | product c => c.results.zip c.values

def tangent (v : Slots F) : Event F → Slots F
  | elementary id args _ => v.set id (args.foldl (fun sum arg => sum + arg.2 * v.get arg.1) 0)
  | input _ _ => v
  | product c => c.tangent v

def adjoint (v : Slots F) : Event F → Slots F
  | elementary id args _ => Statement.propagate ⟨id, .elementary, args, none⟩ v
  | input _ _ => v
  | product c => c.adjoint v

def redo (q : Identifier → F) (e : Event F) : Identifier → F := overwrite q e.writes

def undo (p q : Identifier → F) (e : Event F) : Identifier → F :=
  overwrite q (e.writes.map fun w => (w.1, p w.1))

def Ready (q : Identifier → F) : Event F → Prop
  | product c => c.Agrees q
  | _ => True

def Served (kernels : Kernels F) (token : Token) : Event F → Prop
  | product _ => kernels token = some Product.kernel
  | _ => True

theorem served {kernels : Kernels F} {token : Token} (h : kernels token = some Product.kernel)
    (e : Event F) : e.Served kernels token := by
  cases e with
  | elementary => trivial
  | input => trivial
  | product c => exact h

end Event

variable [Scalar F]

/-- The record was written for a call whose results replaced the listed primals. -/
structure Record.Stores (traits : Traits) (token : Token) (record : Record F) (c : Product.Call F)
    (olds : List F) : Prop where
  token_eq : record.token = token
  fits : c.Fits
  length_olds : olds.length = c.results.length
  staged : ∃ activity a b y, c.Staged olds activity a b y ∧
    record.fixed = Product.schema.fixedCells (c.toRecord activity a b y) ∧
    record.dynamic = Product.schema.dynamicCells traits (c.toRecord activity a b y)

/-- The statement was appended for an event, when the primals were `p`. -/
inductive Statement.Records (traits : Traits) (token : Token) (records : List (Record F))
    (p : Identifier → F) : Statement F → Event F → Prop
  | elementary {id args value overwrite} (hid : id ≠ passive)
      (ho : traits.hasPrimals = true → overwrite = some ⟨value, p id⟩) :
      Records traits token records p ⟨id, .elementary, args, overwrite⟩ (.elementary id args value)
  | input {id args value overwrite} (hid : id ≠ passive) (hb : traits.rollsBack = true)
      (ho : overwrite = some ⟨value, p id⟩) :
      Records traits token records p ⟨id, .input, args, overwrite⟩ (.input id value)
  | product {id k args overwrite record c olds} (hr : records[k]? = some record)
      (hc : record.Stores traits token c olds)
      (ho : traits.rollsBack = true → olds = c.results.map p) :
      Records traits token records p ⟨id, .external k, args, overwrite⟩ (.product c)

theorem Statement.Records.mono {traits : Traits} {token : Token} {records : List (Record F)}
    {p : Identifier → F} {st : Statement F} {e : Event F} (h : st.Records traits token records p e)
    (added : List (Record F)) : st.Records traits token (records ++ added) p e := by
  cases h with
  | elementary hid ho => exact .elementary hid ho
  | input hid hb ho => exact .input hid hb ho
  | product hr hc ho =>
    have hlt := (List.getElem?_eq_some_iff.mp hr).1
    exact .product (by rw [List.getElem?_append_left hlt, hr]) hc ho

theorem Vectors.primal_eq {v : Vectors F} {q : Identifier → F} (hv : v.hasPrimals = true)
    (hslot : ∀ p ∈ v.primals, p.slot = q) (hq : q passive = 0) : v.primal = q := by
  obtain ⟨p, hp⟩ := Option.isSome_iff_exists.mp hv
  have hs := hslot p hp
  funext id
  rw [primal, hp, ← hs]
  exact Slots.get_eq_slot (by rw [hs, hq]) id

/-- The tape holds the recording of another one, with these adjoints and primals. -/
structure Tape.Carries (t base : Tape F) (v : Slots F) (q : Identifier → F) : Prop where
  issuer_eq : t.issuer = base.issuer
  log_eq : t.log = base.log
  pending_eq : t.pending = base.pending
  records_eq : t.records = base.records
  hasPrimals_eq : t.hasPrimals = base.hasPrimals
  lent_eq : t.pool.lent = 0
  adjoints_eq : t.vectors.adjoints = v
  primals_eq : ∀ p ∈ t.vectors.primals, p.slot = q

namespace Tape.Carries

variable {t base : Tape F} {v w : Slots F} {q q' : Identifier → F}

theorem traits_eq (h : t.Carries base v q) : t.traits = base.traits := by
  rw [traits, traits, h.hasPrimals_eq, h.issuer_eq]

theorem replace (h : t.Carries base v q) (u : Vectors F) (pool : Pool F) (hl : pool.lent = 0)
    (hp : u.hasPrimals = t.vectors.hasPrimals) (hv : u.adjoints = w)
    (hq : ∀ p ∈ u.primals, p.slot = q') :
    Tape.Carries { t with vectors := u, pool := pool } base w q' :=
  ⟨h.issuer_eq, h.log_eq, h.pending_eq, h.records_eq, hp.trans h.hasPrimals_eq, hl, hv, hq⟩

theorem gradient_eq (h : t.Carries base v q) (hv : v.slot passive = 0) (id : Identifier) :
    t.gradient id = v.slot id := by
  rw [gradient, Vectors.gradient, h.adjoints_eq, Slots.get_eq_slot hv]

theorem primal_eq (h : t.Carries base v q) (hp : base.hasPrimals = true) (hq : q passive = 0) :
    t.vectors.primal = q :=
  Vectors.primal_eq (h.hasPrimals_eq.trans hp) h.primals_eq hq

end Tape.Carries

end Autodiff
