import Autodiff.Scalar

namespace Autodiff

inductive MatrixOrder
  | byRow
  | byColumn
  deriving DecidableEq, Repr

namespace MatrixOrder

def code : MatrixOrder → Nat
  | byRow => 0
  | byColumn => 1

def ofCode : Nat → MatrixOrder
  | 0 => byRow
  | _ => byColumn

def offset (s : MatrixOrder) (rows cols i j : Nat) : Nat :=
  match s with
  | byRow => i * cols + j
  | byColumn => j * rows + i

end MatrixOrder

def indexPairs (rows cols : Nat) : List (Nat × Nat) :=
  (List.range rows).flatMap fun i => (List.range cols).map fun j => (i, j)

abbrev Matrix (F : Type) := Nat → Nat → F

namespace Matrix

variable {F : Type}

def transpose (p : Matrix F) : Matrix F := fun i j => p j i

def flatten (p : Matrix F) (s : MatrixOrder) (rows cols : Nat) : List F :=
  match s with
  | .byRow => (indexPairs rows cols).map fun ij => p ij.1 ij.2
  | .byColumn => (indexPairs cols rows).map fun ji => p ji.2 ji.1

variable [Scalar F]

def ofList (s : MatrixOrder) (rows cols : Nat) (xs : List F) : Matrix F :=
  fun i j => xs.getD (s.offset rows cols i j) 0

def zero : Matrix F := fun _ _ => 0

def add (p q : Matrix F) : Matrix F := fun i j => p i j + q i j

def addProducts (x y : Nat → F) (sum : F) (places : List Nat) : F :=
  places.foldl (fun sum l => x l * y l + sum) sum

/-- Products added up from the first one on; without any product the sum is zero. -/
def dot (x y : Nat → F) : Nat → F
  | 0 => 0
  | n + 1 => addProducts x y (x 0 * y 0) ((List.range n).map (· + 1))

/-- Products added up from zero. A floating-point sum of negative zeros is then positive. -/
def dotFromZero (x y : Nat → F) (n : Nat) : F := addProducts x y 0 (List.range n)

def isLarge (rows inner cols : Nat) : Bool := 5 < rows && 5 < inner && 5 < cols

/-- The product of a `rows × inner` and an `inner × cols` matrix. The elements of a large product
are added up from zero. -/
def mul (rows inner cols : Nat) (p q : Matrix F) : Matrix F := fun i j =>
  if isLarge rows inner cols then dotFromZero (p i) (fun l => q l j) inner
  else dot (p i) (fun l => q l j) inner

end Matrix

end Autodiff
