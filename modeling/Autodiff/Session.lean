import Autodiff.Recording
import Autodiff.Tape.Rewind
import Autodiff.Tape.Statistics
import Autodiff.Writing
/-!
A session works step by step on several tapes of one type and on one list of variables.

A fault ends it; a refused request is an answer like any other.
-/

namespace Autodiff

inductive Place
  | zero
  | here
  | mark (n : Nat)
  deriving DecidableEq, Repr

inductive Command (F : Type)
  | operate (op : Operation F)
  | largest
  | describe (v : Nat)
  | token (b : Builtin)
  | addRecord (token : Token) (fixedSize dynamicSize : Nat) (fixed dynamic : List (WritingStep F))
  | script (s : Script F)
  | position
  | mark
  | compare (a b : Place)
  | statementCount
  | clear
  | backTo (p : Place)
  | adjointSweepAll
  | tangentSweepAll
  | adjointSweep (start stop : Place)
  | tangentSweep (start stop : Place)
  | gradient (of : IdRef)
  | gradients (of : List IdRef)
  | setGradient (of : IdRef) (x : F)
  | writeGradient (of : IdRef) (x : F)
  | zeroAdjoints
  | shrink
  | fillAdjoints (x : F)
  | resizeAdjoints (n : Nat)
  | primal (of : IdRef)
  | inspect
  | kind
  | swap (other : Nat)
  | getParameter (name : String)
  | setParameter (name : String) (n : Nat)
  | report
  | poolTake (values identifiers : Nat)
  | poolGive
  | pool

inductive Reply (F : Type) [Scalar F]
  | note (n : Note F)
  | order (o : Ordering) (equal : Bool)
  | tapes (ts : List (Tape F))
  | contents (t : Tape F)
  | kind (k : TapeKind) (traits : Traits)
  | statistics (r : Report)
  | refused (e : Cause)

structure Session (F : Type) [Scalar F] where
  tapes : List (Tape F)
  vars : List (Variable F)
  marks : List Position
  script : Script F
  values : List (Buffer F)
  identifiers : List (Buffer Identifier)

namespace Session

variable {F : Type} [Scalar F]

def start (policy : Policy) (kinds : List TapeKind) (values : List F) : Session F where
  tapes := kinds.map (Tape.new policy)
  vars := values.map .constant
  marks := []
  script := .empty
  values := []
  identifiers := []

def tape (s : Session F) (t : Nat) : Tape F := s.tapes.getD t (.new .linear .jacobian)

def setTape (s : Session F) (t : Nat) (tape : Tape F) : Session F :=
  { s with tapes := s.tapes.set t tape }

def recording (s : Session F) (t : Nat) : Recording F := ⟨s.tape t, s.vars⟩

def withRecording (s : Session F) (t : Nat) (r : Recording F) : Session F :=
  { s.setTape t r.tape with vars := r.vars }

def place (s : Session F) (t : Nat) : Place → Position
  | .zero => .zero
  | .here => (s.tape t).position
  | .mark n => s.marks.getD n .zero

def identifier (s : Session F) (t : Nat) (ref : IdRef) : Identifier := (s.recording t).resolve ref

def quiet {α : Type} : Except Fault α → Except (Halt F) α
  | .ok x => .ok x
  | .error fault => .error ⟨fault, []⟩

structure Outcome (F : Type) [Scalar F] where
  reply : Reply F
  notes : List (Note F)
  session : Session F

def answer (s : Session F) (n : Note F) : Outcome F := ⟨.note n, [], s⟩

def change (s : Session F) (t : Nat) (tape : Tape F) : Outcome F :=
  (s.setTape t tape).answer .nothing

def traced (s : Session F) (t : Nat) (result : Traced F) : Outcome F :=
  ⟨.note .nothing, result.notes, s.setTape t result.tape⟩

def request {α : Type} (s : Session F) (result : Except Cause α) (accept : α → Outcome F) :
    Outcome F :=
  match result with
  | .ok x => accept x
  | .error e => ⟨.refused e, [], s⟩

def poolTake (s : Session F) (t values identifiers : Nat) : Outcome F :=
  let tape := s.tape t
  let (vs, pool) := tape.pool.lendValues values
  let (ids, pool) := pool.lendIdentifiers identifiers
  let s := s.setTape t { tape with pool := pool }
  { s with values := vs :: s.values, identifiers := ids :: s.identifiers }.answer
    (.flag pool.isIdle)

def poolGive (s : Session F) (t : Nat) : Except Fault (Outcome F) := do
  let tape := s.tape t
  let pool ← tape.pool.returnValues (s.values.head?.getD .empty)
  let pool ← pool.returnIdentifiers (s.identifiers.head?.getD .empty)
  let s := s.setTape t { tape with pool := pool }
  return { s with values := s.values.tail, identifiers := s.identifiers.tail }.answer
    (.flag pool.isIdle)

def addRecord (s : Session F) (t : Nat) (c : Catalogue F) (token : Token)
    (fixedSize dynamicSize : Nat) (fixed dynamic : List (WritingStep F)) :
    Except Fault (Outcome F) := do
  let (notes, tape) ← (s.tape t).addRecord c.kernels token fixedSize dynamicSize fun f d => do
    let (fixedNotes, f) ← f.runSteps fixed
    let (dynamicNotes, d) ← d.runSteps dynamic
    return ([.list fixedNotes, .list dynamicNotes], f, d)
  return (s.setTape t tape).answer (.list notes)

def swap (s : Session F) (t other : Nat) : Outcome F :=
  let s' := (s.setTape t (s.tape other)).setTape other (s.tape t)
  ⟨.tapes [s'.tape t, s'.tape other], [], s'⟩

def step (s : Session F) (catalogue : Script F → Catalogue F) (t : Nat) :
    Command F → Except (Halt F) (Outcome F)
  | .operate op => do
    let (note, r) ← quiet ((s.recording t).apply (catalogue s.script) op)
    return (s.withRecording t r).answer note
  | .largest => .ok (s.answer (.count (s.tape t).issuer.largest))
  | .describe v =>
    let x := (s.recording t).get v
    .ok (s.answer (.list [.count x.identifier, .real x.value, .flag x.isActive]))
  | .token b =>
    let token := (catalogue s.script).token b
    .ok (s.answer (.list [.count token.index, .text token.display]))
  | .addRecord token fixedSize dynamicSize fixed dynamic =>
    quiet (s.addRecord t (catalogue s.script) token fixedSize dynamicSize fixed dynamic)
  | .script script => .ok ({ s with script := script }.answer .nothing)
  | .position =>
    let p := (s.tape t).position
    .ok (s.answer (.list [.count p.statements, .count p.externals, .text p.display]))
  | .mark =>
    .ok ({ s with marks := s.marks ++ [(s.tape t).position] }.answer (.count s.marks.length))
  | .compare a b =>
    let (p, q) := (s.place t a, s.place t b)
    .ok ⟨.order (p.order q) (p == q), [], s⟩
  | .statementCount => .ok (s.answer (.count (s.tape t).statementCount))
  | .clear => s.traced t <$> (s.tape t).clear (catalogue s.script).kernels
  | .backTo p => s.traced t <$> (s.tape t).backTo (catalogue s.script).kernels (s.place t p)
  | .adjointSweepAll => s.traced t <$> (s.tape t).adjointSweepAll (catalogue s.script).kernels
  | .tangentSweepAll => s.traced t <$> (s.tape t).tangentSweepAll (catalogue s.script).kernels
  | .adjointSweep start stop =>
    s.traced t <$> (s.tape t).adjointSweep (catalogue s.script).kernels (s.place t start)
      (s.place t stop)
  | .tangentSweep start stop =>
    s.traced t <$> (s.tape t).tangentSweep (catalogue s.script).kernels (s.place t start)
      (s.place t stop)
  | .gradient ref => .ok (s.answer (.real ((s.tape t).gradient (s.identifier t ref))))
  | .gradients refs =>
    .ok (s.answer (.list (refs.map fun ref => .real ((s.tape t).gradient (s.identifier t ref)))))
  | .setGradient ref x => .ok (s.change t ((s.tape t).setGradient (s.identifier t ref) x))
  | .writeGradient ref x => .ok (s.change t ((s.tape t).writeGradient (s.identifier t ref) x))
  | .zeroAdjoints => .ok (s.change t (s.tape t).zeroAdjoints)
  | .shrink => s.change t <$> quiet (s.tape t).shrink
  | .fillAdjoints x =>
    .ok (s.change t ((s.tape t).withAdjoints ((s.tape t).vectors.adjoints.fill x)))
  | .resizeAdjoints n =>
    .ok (s.change t ((s.tape t).withAdjoints ((s.tape t).vectors.adjoints.resize n)))
  | .primal ref =>
    .ok (s.answer (((s.tape t).primal? (s.identifier t ref)).elim .nothing .real))
  | .inspect => .ok ⟨.contents (s.tape t), [], s⟩
  | .kind => .ok ⟨.kind (s.tape t).kind (s.tape t).traits, [], s⟩
  | .swap other => .ok (s.swap t other)
  | .getParameter name =>
    .ok (s.request ((s.tape t).getParameterByName name) fun n => s.answer (.count n))
  | .setParameter name n => .ok (s.request ((s.tape t).setParameterByName name n) (s.change t))
  | .report => do
    let r ← quiet (s.tape t).report
    return ⟨.statistics r, [], s⟩
  | .poolTake values identifiers => .ok (s.poolTake t values identifiers)
  | .poolGive => quiet (s.poolGive t)
  | .pool =>
    let pool := (s.tape t).pool
    .ok (s.answer (.list [.flag pool.isIdle, .flag (pool.pooledBytes != 0),
      .flag (pool.peakBytes != 0)]))

structure Answer (F : Type) [Scalar F] where
  reply : Reply F
  tape : Tape F
  notes : List (Note F)

def run (s : Session F) (catalogue : Script F → Catalogue F) :
    List (Nat × Command F) → List (Answer F) × Except (Halt F) (Session F)
  | [] => ([], .ok s)
  | (t, command) :: steps =>
    match s.step catalogue t command with
    | .error halt => ([], .error halt)
    | .ok outcome =>
      let answer : Answer F := ⟨outcome.reply, outcome.session.tape t, outcome.notes⟩
      let (answers, result) := outcome.session.run catalogue steps
      (answer :: answers, result)

def dropTapes (kernels : Kernels F) : List (Tape F) → List (Note F) × Option Fault
  | [] => ([], none)
  | t :: rest =>
    match t.discard kernels with
    | .error halt => (halt.notes, some halt.fault)
    | .ok s =>
      let (notes, fault) := dropTapes kernels rest
      (s.notes ++ notes, fault)

def drop (s : Session F) (catalogue : Script F → Catalogue F) : List (Note F) × Option Fault :=
  dropTapes (catalogue s.script).kernels s.tapes

end Session

end Autodiff
