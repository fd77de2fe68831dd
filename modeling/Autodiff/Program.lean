import Autodiff.Traits
import Autodiff.Note
import Autodiff.Vectors
/-!
What the callbacks of an external function may do.

A callback is a program over typed actions: it reads the bytes of its record, borrows and returns
buffers, and reads and writes the vectors. A deletion gets empty vectors, and what it writes to them
is dropped.
-/

namespace Autodiff

inductive Side
  | fixed
  | dynamic
  deriving DecidableEq, Repr

namespace Side

def name : Side → String
  | fixed => "fixed"
  | dynamic => "dynamic"

end Side

inductive Action (F : Type)
  | traits
  | read (side : Side) (ty : FieldType)
  | readMany (side : Side) (ty : FieldType) (count : Nat)
  | remaining (side : Side)
  | finish (side : Side)
  | lendIdentifiers (n : Nat)
  | lendValues (n : Nat)
  | returnIdentifiers (b : Buffer Identifier)
  | returnValues (b : Buffer F)
  | poolIdle
  | gradient (id : Identifier)
  | setGradient (id : Identifier) (x : F)
  | addGradient (id : Identifier) (x : F)
  | takeGradient (id : Identifier)
  | hasPrimals
  | primal (id : Identifier)
  | setPrimal (id : Identifier) (x : F)
  | report (note : Note F)

namespace Action

abbrev Result {F : Type} : Action F → Type
  | traits => Traits
  | read _ ty => ty.Value F
  | readMany _ ty _ => List (ty.Value F)
  | remaining _ => Nat
  | finish _ => Unit
  | lendIdentifiers _ => Buffer Identifier
  | lendValues _ => Buffer F
  | returnIdentifiers _ => Unit
  | returnValues _ => Unit
  | poolIdle => Bool
  | gradient _ => F
  | setGradient _ _ => Unit
  | addGradient _ _ => Unit
  | takeGradient _ => F
  | hasPrimals => Bool
  | primal _ => F
  | setPrimal _ _ => Unit
  | report _ => Unit

end Action

inductive Program (F : Type) (α : Type)
  | pure (x : α)
  | fail (fault : Fault)
  | perform (a : Action F) (next : a.Result → Program F α)

namespace Program

variable {F α β : Type}

def bind : Program F α → (α → Program F β) → Program F β
  | pure x, f => f x
  | fail fault, _ => fail fault
  | perform a next, f => perform a fun x => (next x).bind f

instance : Monad (Program F) where
  pure := pure
  bind := bind

theorem bind_pure (p : Program F α) : p.bind pure = p := by
  induction p with
  | pure x => rfl
  | fail fault => rfl
  | perform a next ih => simp [bind, ih]

theorem bind_assoc {γ : Type} (p : Program F α) (f : α → Program F β) (g : β → Program F γ) :
    (p.bind f).bind g = p.bind fun x => (f x).bind g := by
  induction p with
  | pure x => rfl
  | fail fault => rfl
  | perform a next ih => simp [bind, ih]

def act (a : Action F) : Program F a.Result := perform a pure

end Program

structure Replay (F : Type) [Scalar F] where
  traits : Traits
  fixed : Reader F
  dynamic : Reader F
  pool : Pool F
  vectors : Vectors F
  notes : List (Note F)

namespace Replay

variable {F : Type} [Scalar F]

def reader (r : Replay F) : Side → Reader F
  | .fixed => r.fixed
  | .dynamic => r.dynamic

def withReader (r : Replay F) (side : Side) (reader : Reader F) : Replay F :=
  match side with
  | .fixed => { r with fixed := reader }
  | .dynamic => { r with dynamic := reader }

def withPool (r : Replay F) (pool : Pool F) : Replay F := { r with pool := pool }

def withVectors (r : Replay F) (vectors : Vectors F) : Replay F := { r with vectors := vectors }

end Replay

variable {F : Type} [Scalar F]

def Action.perform (r : Replay F) : (a : Action F) → Except Fault (a.Result × Replay F)
  | traits => .ok (r.traits, r)
  | read side ty => do
    let (x, reader) ← (r.reader side).read ty
    return (x, r.withReader side reader)
  | readMany side ty count => do
    let (xs, reader) ← (r.reader side).readMany ty count
    return (xs, r.withReader side reader)
  | remaining side => .ok ((r.reader side).remaining, r)
  | finish side => do
    (r.reader side).finish
    return ((), r)
  | lendIdentifiers n =>
    let (b, pool) := r.pool.lendIdentifiers n
    .ok (b, r.withPool pool)
  | lendValues n =>
    let (b, pool) := r.pool.lendValues n
    .ok (b, r.withPool pool)
  | returnIdentifiers b => do
    let pool ← r.pool.returnIdentifiers b
    return ((), r.withPool pool)
  | returnValues b => do
    let pool ← r.pool.returnValues b
    return ((), r.withPool pool)
  | poolIdle => .ok (r.pool.isIdle, r)
  | gradient id => .ok (r.vectors.gradient id, r)
  | setGradient id x => .ok ((), r.withVectors (r.vectors.setGradient id x))
  | addGradient id x => .ok ((), r.withVectors (r.vectors.addGradient id x))
  | takeGradient id =>
    let (x, vectors) := r.vectors.takeGradient id
    .ok (x, r.withVectors vectors)
  | hasPrimals => .ok (r.vectors.hasPrimals, r)
  | primal id => .ok (r.vectors.primal id, r)
  | setPrimal id x => .ok ((), r.withVectors (r.vectors.setPrimal id x))
  | report note => .ok ((), { r with notes := r.notes ++ [note] })

structure Halt (F : Type) where
  fault : Fault
  notes : List (Note F)

namespace Program

variable {α : Type}

def run (r : Replay F) : Program F α → Except (Halt F) (α × Replay F)
  | pure x => .ok (x, r)
  | fail fault => .error ⟨fault, r.notes⟩
  | perform a next =>
    match a.perform r with
    | .ok (x, r) => (next x).run r
    | .error fault => .error ⟨fault, r.notes⟩

theorem run_bind {β : Type} (r : Replay F) (p : Program F α) (f : α → Program F β) :
    (p.bind f).run r = p.run r >>= fun s => (f s.1).run s.2 := by
  induction p generalizing r with
  | pure x => rfl
  | fail fault => rfl
  | perform a next ih =>
    simp only [bind, run]
    cases a.perform r with
    | ok s => exact ih s.1 s.2
    | error fault => rfl

end Program

end Autodiff
