import Autodiff.Decimal

namespace Autodiff

inductive Quantity
  | unsigned (n : Nat)
  | double (x : Float)

structure Report.Entry where
  name : String
  quantity : Quantity
  isMemory : Bool

structure Report.Section where
  name : String
  entries : List Report.Entry

structure Report where
  title : String
  sections : List Report.Section

namespace Report

def new (title : String) : Report := ⟨title, []⟩

def addSection (r : Report) (name : String) : Report :=
  { r with sections := r.sections ++ [⟨name, []⟩] }

def addToLast (e : Entry) : List Section → List Section
  | [] => [⟨"General", [e]⟩]
  | [s] => [{ s with entries := s.entries ++ [e] }]
  | s :: rest => s :: addToLast e rest

def add (r : Report) (e : Entry) : Report := { r with sections := addToLast e r.sections }

def addUnsigned (r : Report) (name : String) (n : Nat) : Report := r.add ⟨name, .unsigned n, false⟩

def addDouble (r : Report) (name : String) (x : Float) (isMemory : Bool) : Report :=
  r.add ⟨name, .double x, isMemory⟩

def addMemory (r : Report) (name : String) (bytes : Nat) : Report :=
  r.addDouble name bytes.toFloat true

def find? (r : Report) (inSection name : String) : Option Quantity :=
  (((r.sections.filter fun s => s.name == inSection).flatMap Section.entries).find? fun e =>
    e.name == name).map Entry.quantity

def Quantity.toFloat : Quantity → Float
  | .unsigned n => n.toFloat
  | .double x => x

/-- The sum of all memory entries. The empty sum is negative zero. -/
def usedMemory (r : Report) : Float :=
  ((r.sections.flatMap Section.entries).filter Entry.isMemory).foldl
    (fun sum e => sum + Quantity.toFloat e.quantity) (-0.0)

def megabyte : Float := 1048576.0

def twoPlaces (x : Float) : String := Decimal.fixed Decimal.binary64 2 x.toBits.toNat

def padLeft (width : Nat) (s : String) : String :=
  String.ofList (List.replicate (width - s.length) ' ') ++ s

def padRight (width : Nat) (s : String) : String :=
  s ++ String.ofList (List.replicate (width - s.length) ' ')

def rule : String := String.ofList (List.replicate 53 '-')

def Entry.line (e : Entry) : String :=
  "  " ++ padRight 30 e.name ++
    match e.quantity with
    | .unsigned n => padLeft 12 n.repr
    | .double x =>
      if e.isMemory then padLeft 12 (twoPlaces (x / megabyte)) ++ " MB"
      else padLeft 12 (twoPlaces x)

def heading (text : String) : List String := [rule, text, rule]

def Section.lines (s : Section) : List String := heading s.name ++ s.entries.map Entry.line

def display (r : Report) : String :=
  let total :=
    padRight 32 "Total memory used" ++ padLeft 12 (twoPlaces (r.usedMemory / megabyte)) ++ " MB"
  "\n".intercalate (heading r.title ++ [total] ++ r.sections.flatMap Section.lines ++ [rule])

end Report

end Autodiff
