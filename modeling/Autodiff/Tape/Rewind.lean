import Autodiff.Tape.Sweep

namespace Autodiff.Tape

variable {F : Type} [Scalar F]

/-- Runs the deletion of one record. It sees no vectors. -/
def deleteRecord (kernels : Kernels F) (s : Traced F) (record : Record F) :
    Except (Halt F) (Traced F) := do
  let kernel ← s.attempt (kernels.find record.token)
  let (_, r) ← kernel.delete.run (s.tape.replayOf record .none s.notes)
  return ⟨{ s.tape with pool := r.pool }, r.notes⟩

def deleteRecords (t : Tape F) (kernels : Kernels F) (start : Nat) :
    Except (Halt F) (Traced F) := do
  let s ← (t.records.drop start).reverse.foldlM (deleteRecord kernels) ⟨t, []⟩
  return s.mapTape fun t => { t with records := t.records.take start }

def backTo (t : Tape F) (kernels : Kernels F) (p : Position) : Except (Halt F) (Traced F) := do
  if p.statements ≤ t.statementCount ∧ p.externals ≤ t.records.length then
    let s ← t.deleteRecords kernels p.externals
    let issuer ← s.attempt (t.issuer.rewind p.largest)
    return s.mapTape fun t =>
      { t with log := t.log.take p.statements, pending := [], issuer := issuer }
  else
    .error ⟨.fatal (.invalidRange p.statements t.statementCount), []⟩

def clear (t : Tape F) (kernels : Kernels F) : Except (Halt F) (Traced F) := do
  let s ← t.backTo kernels .zero
  return s.mapTape zeroAdjoints

def discard (t : Tape F) (kernels : Kernels F) : Except (Halt F) (Traced F) :=
  t.deleteRecords kernels 0

end Autodiff.Tape
