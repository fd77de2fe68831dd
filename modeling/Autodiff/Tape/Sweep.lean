import Autodiff.Tape.Basic

namespace Autodiff

namespace Statement

variable {F : Type} [Scalar F]

def tangent (s : Statement F) (v : Slots F) : F :=
  s.arguments.foldl (fun sum arg => sum + arg.2 * v.get arg.1) 0

def distribute (s : Statement F) (adjoint : F) (v : Slots F) : Slots F :=
  s.arguments.foldl (fun v arg => v.modify arg.1 (· + arg.2 * adjoint)) v

def propagate (s : Statement F) (v : Slots F) : Slots F :=
  let adjoint := v.get s.output
  if Scalar.isZero adjoint then v else s.distribute adjoint (v.set s.output 0)

def redo (s : Statement F) (p : Slots F) : Slots F :=
  match s.overwrite with
  | some o => p.set s.output o.new
  | none => p

def undo (s : Statement F) (p : Slots F) : Slots F :=
  match s.overwrite with
  | some o => p.set s.output o.old
  | none => p

end Statement

structure Traced (F : Type) [Scalar F] where
  tape : Tape F
  notes : List (Note F)

namespace Tape

variable {F : Type} [Scalar F]

def checkSpan (t : Tape F) (start stop : Position) : Except Fault Unit :=
  if start.statements ≤ stop.statements ∧ stop.statements ≤ t.statementCount then .ok ()
  else .error (.fatal (.invalidRange start.statements stop.statements))

def range (t : Tape F) (start stop : Position) : List (Statement F) :=
  (t.log.take stop.statements).drop start.statements

def widen (t : Tape F) : Tape F := { t with vectors := t.vectors.ensure t.issuer.largest }

def replayOf (t : Tape F) (r : Record F) (vectors : Vectors F) (notes : List (Note F)) :
    Replay F where
  traits := t.traits
  fixed := .new "fixed" r.fixed
  dynamic := .new "dynamic" r.dynamic
  pool := t.pool
  vectors := vectors
  notes := notes

end Tape

namespace Traced

variable {F : Type} [Scalar F]

def mapTape (s : Traced F) (f : Tape F → Tape F) : Traced F := { s with tape := f s.tape }

def halt {α : Type} (s : Traced F) (fault : Fault) : Except (Halt F) α := .error ⟨fault, s.notes⟩

def attempt {α : Type} (s : Traced F) : Except Fault α → Except (Halt F) α
  | .ok x => .ok x
  | .error fault => s.halt fault

def replay (s : Traced F) (kernels : Kernels F) (callback : Kernel F → Program F Unit) (k : Nat) :
    Except (Halt F) (Traced F) := do
  match s.tape.records[k]? with
  | none => s.halt .missingRecord
  | some record =>
    let kernel ← s.attempt (kernels.find record.token)
    let (_, r) ← (callback kernel).run (s.tape.replayOf record s.tape.vectors s.notes)
    return ⟨{ s.tape with vectors := r.vectors, pool := r.pool }, r.notes⟩

def tangentStep (kernels : Kernels F) (s : Traced F) (st : Statement F) :
    Except (Halt F) (Traced F) :=
  match st.kind with
  | .elementary =>
    .ok <| s.mapTape fun t =>
      let v := t.vectors
      { t with vectors :=
        ⟨v.adjoints.set st.output (st.tangent v.adjoints), v.primals.map st.redo⟩ }
  | .input => .ok <| s.mapTape fun t => t.withPrimals (t.vectors.primals.map st.redo)
  | .external k => s.replay kernels Kernel.forward k

/-- Where identifiers are reused, the primal that a statement replaced is put back first. -/
def undoPrimal (st : Statement F) (t : Tape F) : Tape F :=
  if t.traits.rollsBack then t.withPrimals (t.vectors.primals.map st.undo) else t

def adjointStep (kernels : Kernels F) (s : Traced F) (st : Statement F) :
    Except (Halt F) (Traced F) :=
  match st.kind with
  | .elementary =>
    .ok <| s.mapTape fun t =>
      let t := undoPrimal st t
      t.withAdjoints (st.propagate t.vectors.adjoints)
  | .input => .ok <| s.mapTape (undoPrimal st)
  | .external k => s.replay kernels Kernel.reverse k

end Traced

namespace Tape

variable {F : Type} [Scalar F]

def tangentSweep (t : Tape F) (kernels : Kernels F) (start stop : Position) :
    Except (Halt F) (Traced F) := do
  let s : Traced F := ⟨t, []⟩
  s.attempt (t.checkSpan start stop)
  if start.statements = stop.statements then return s
  (t.range start stop).foldlM (Traced.tangentStep kernels) (s.mapTape widen)

/-- Adjoint sweep over the statements between two positions. Where identifiers are reused the sweep
rolls the primals back, and the primals it started from are put back at its end. -/
def adjointSweep (t : Tape F) (kernels : Kernels F) (start stop : Position) :
    Except (Halt F) (Traced F) := do
  let s : Traced F := ⟨t, []⟩
  s.attempt (t.checkSpan start stop)
  if start.statements = stop.statements then return s
  let s := s.mapTape widen
  let saved := s.tape.vectors.primals
  let s ← (t.range start stop).reverse.foldlM (Traced.adjointStep kernels) s
  if t.traits.rollsBack then
    return s.mapTape fun t =>
      { t.withPrimals saved with sweepCopy := t.vectors.primals.getD t.sweepCopy }
  else return s

def adjointSweepAll (t : Tape F) (kernels : Kernels F) : Except (Halt F) (Traced F) :=
  t.adjointSweep kernels .zero t.position

def tangentSweepAll (t : Tape F) (kernels : Kernels F) : Except (Halt F) (Traced F) :=
  t.tangentSweep kernels .zero t.position

end Tape

end Autodiff
