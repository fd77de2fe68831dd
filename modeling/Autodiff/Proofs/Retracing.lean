import Autodiff.Proofs.Rewinding
import Autodiff.Proofs.SweepSteps

namespace Autodiff

variable {F : Type} [Scalar F]

/-- The statement keeps what it takes to turn the primals `q` back into `p`. An external function
keeps it in its record, which is laid out by the schema. -/
inductive Statement.Reverts (kernels : Kernels F) (schema : Schema F) (traits : Traits)
    (records : List (Record F)) (p q : Identifier → F) : Statement F → Prop
  | own {id kind args new} (hid : id ≠ passive) (hkind : kind = .elementary ∨ kind = .input)
      (hp : Autodiff.overwrite q [(id, p id)] = p) :
      Reverts kernels schema traits records p q ⟨id, kind, args, some ⟨new, p id⟩⟩
  | external {id k args overwrite' record kernel a} (hr : records[k]? = some record)
      (hk : kernels record.token = some kernel) (hkernel : kernel.Rewinds schema)
      (hfit : schema.Fits a) (hf : record.fixed = schema.fixedCells a)
      (hd : record.dynamic = schema.dynamicCells traits a)
      (hp : Autodiff.overwrite q (schema.replaced a) = p) :
      Reverts kernels schema traits records p q ⟨id, .external k, args, overwrite'⟩

inductive Retraces (kernels : Kernels F) (traits : Traits) (records : List (Record F))
    (p : Identifier → F) : List (Statement F) → (Identifier → F) → Prop
  | nil : Retraces kernels traits records p [] p
  | snoc {log st q r schema} (h : Retraces kernels traits records p log q)
      (hst : st.Reverts kernels schema traits records q r) :
      Retraces kernels traits records p (log ++ [st]) r

namespace Statement.Reverts

variable {kernels : Kernels F} {schema : Schema F} {traits : Traits} {records : List (Record F)}
  {p q : Identifier → F} {st : Statement F}

theorem mono (h : st.Reverts kernels schema traits records p q) {records' : List (Record F)}
    (hrecords : records <+: records') : st.Reverts kernels schema traits records' p q := by
  cases h with
  | own hid hkind hp => exact .own hid hkind hp
  | external hr hk hkernel hfit hf hd hp =>
    obtain ⟨added, rfl⟩ := hrecords
    have hlt := (List.getElem?_eq_some_iff.mp hr).1
    exact .external (by rw [List.getElem?_append_left hlt, hr]) hk hkernel hfit hf hd hp

end Statement.Reverts

/-- The vectors of a reverse sweep once it has put back the primals that a statement overwrote. It
does so before anything else; `Schema.reverse_eq` says so for external functions. -/
def Traced.restored (s : Traced F) (schema : Schema F) (st : Statement F) :
    Except (Halt F) (Vectors F) :=
  match st.kind with
  | .external k =>
    match s.tape.records[k]? with
    | none => s.halt .missingRecord
    | some record => do
      let (_, r) ← schema.rewind.run (s.tape.replayOf record s.tape.vectors s.notes)
      return r.vectors
  | _ => .ok (undoPrimal st s.tape).vectors

namespace Traced

variable [LawfulCells F] {kernels : Kernels F} {schema : Schema F} {s : Traced F} {base : Tape F}
  {v : Slots F} {p q : Identifier → F} {st : Statement F}
  (hb : base.traits.rollsBack = true) (hs : s.tape.Carries base v q)
include hb hs

end Traced

end Autodiff
