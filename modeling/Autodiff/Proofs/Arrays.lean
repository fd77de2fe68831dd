import Mathlib
import Autodiff.Tape.Rewind
/-!
A recording laid out in parallel vectors. A statement says where its arguments stop, and they start
where those of the statement before it stop; a record says where its bytes lie in two segments that
all records share.
-/

namespace Autodiff

variable {F : Type} [Scalar F]

structure LogEntry where
  output : Identifier
  stop : Nat
  kind : StatementKind
  deriving DecidableEq, Repr

/-- Stands before the first statement, so that its arguments start somewhere. -/
def LogEntry.sentinel : LogEntry := ⟨passive, 0, .elementary⟩

def StatementKind.record? : StatementKind → Option Nat
  | elementary => none
  | input => none
  | external k => some k

structure Span where
  start : Nat
  stop : Nat
  deriving DecidableEq, Repr

def Span.read? {α : Type} (s : Span) (xs : List α) : Option (List α) :=
  if s.start ≤ s.stop ∧ s.stop ≤ xs.length then some ((xs.take s.stop).drop s.start) else none

structure Extent where
  token : Token
  fixed : Span
  dynamic : Span
  deriving DecidableEq, Repr

structure Arrays (F : Type) [Scalar F] where
  entries : List LogEntry
  weights : List F
  arguments : List Identifier
  overwrites : List (Overwrite F)
  externals : List Extent
  fixedData : List (Scalar.Cell F)
  dynamicData : List (Scalar.Cell F)

inductive Change (F : Type) [Scalar F]
  | argument (id : Identifier) (weight : F)
  | statement (output : Identifier) (kind : StatementKind) (overwrite : Option (Overwrite F))
  | record (r : Record F) (overwrite : Option (Overwrite F))
  | cut (p : Position)

namespace Arrays

def new (hasPrimals : Bool) : Arrays F where
  entries := [.sentinel]
  weights := []
  arguments := []
  overwrites := if hasPrimals then [⟨0, 0⟩] else []
  externals := []
  fixedData := []
  dynamicData := []

def addArgument (a : Arrays F) (id : Identifier) (weight : F) : Arrays F :=
  if id = passive then a
  else { a with weights := a.weights ++ [weight], arguments := a.arguments ++ [id] }

def append (a : Arrays F) (output : Identifier) (kind : StatementKind)
    (overwrite : Option (Overwrite F)) : Arrays F :=
  { a with
    entries := a.entries ++ [⟨output, a.weights.length, kind⟩]
    overwrites := a.overwrites ++ overwrite.toList }

def addRecord (a : Arrays F) (r : Record F) (overwrite : Option (Overwrite F)) : Arrays F :=
  let extent : Extent :=
    ⟨r.token, ⟨a.fixedData.length, a.fixedData.length + r.fixed.length⟩,
      ⟨a.dynamicData.length, a.dynamicData.length + r.dynamic.length⟩⟩
  let added := { a with
    externals := a.externals ++ [extent]
    fixedData := a.fixedData ++ r.fixed
    dynamicData := a.dynamicData ++ r.dynamic }
  added.append passive (.external a.externals.length) overwrite

def endOf (spans : List Span) : Nat := (spans.getLast?.map Span.stop).getD 0

def cut? (a : Arrays F) (p : Position) : Option (Arrays F) := do
  let last ← a.entries[p.statements]?
  if p.externals ≤ a.externals.length then
    let externals := a.externals.take p.externals
    return {
      entries := a.entries.take (p.statements + 1)
      weights := a.weights.take last.stop
      arguments := a.arguments.take last.stop
      overwrites := a.overwrites.take (p.statements + 1)
      externals := externals
      fixedData := a.fixedData.take (endOf (externals.map Extent.fixed))
      dynamicData := a.dynamicData.take (endOf (externals.map Extent.dynamic)) }
  else none

def change? (a : Arrays F) : Change F → Option (Arrays F)
  | .argument id weight => some (a.addArgument id weight)
  | .statement output kind overwrite => some (a.append output kind overwrite)
  | .record r overwrite => some (a.addRecord r overwrite)
  | .cut p => a.cut? p

def changes? (a : Arrays F) (cs : List (Change F)) : Option (Arrays F) := cs.foldlM change? a

def statement? (a : Arrays F) (n : Nat) : Option (Statement F) := do
  let before ← a.entries[n]?
  let entry ← a.entries[n + 1]?
  let span : Span := ⟨before.stop, entry.stop⟩
  let arguments ← span.read? a.arguments
  let weights ← span.read? a.weights
  return ⟨entry.output, entry.kind, arguments.zip weights, a.overwrites[n + 1]?⟩

def record? (a : Arrays F) (k : Nat) : Option (Record F) := do
  let e ← a.externals[k]?
  let fixed ← e.fixed.read? a.fixedData
  let dynamic ← e.dynamic.read? a.dynamicData
  return ⟨e.token, fixed, dynamic⟩

end Arrays

def Tiles : List Span → Nat → Nat → Prop
  | [], start, stop => start = stop
  | s :: ss, start, stop => s.start = start ∧ s.start ≤ s.stop ∧ Tiles ss s.stop stop

structure Arrays.WellFormed (a : Arrays F) (hasPrimals : Bool) : Prop where
  sentinel : a.entries.head? = some .sentinel
  stops_le : (a.entries.map LogEntry.stop).Pairwise (· ≤ ·)
  stop_le_length : ∀ e ∈ a.entries, e.stop ≤ a.weights.length
  length_arguments : a.arguments.length = a.weights.length
  arguments_ne : ∀ id ∈ a.arguments, id ≠ passive
  length_overwrites : a.overwrites.length = if hasPrimals then a.entries.length else 0
  externals_eq : a.entries.filterMap (·.kind.record?) = List.range a.externals.length
  fixed_tiles : Tiles (a.externals.map Extent.fixed) 0 a.fixedData.length
  dynamic_tiles : Tiles (a.externals.map Extent.dynamic) 0 a.dynamicData.length

structure Contents (F : Type) [Scalar F] where
  log : List (Statement F)
  pending : List (Identifier × F)
  records : List (Record F)

def Tape.contents (t : Tape F) : Contents F := ⟨t.log, t.pending, t.records⟩

namespace Contents

def empty : Contents F := ⟨[], [], []⟩

def append (c : Contents F) (output : Identifier) (kind : StatementKind)
    (overwrite : Option (Overwrite F)) : Contents F :=
  { c with log := c.log ++ [⟨output, kind, c.pending, overwrite⟩], pending := [] }

def change (c : Contents F) : Change F → Contents F
  | .argument id weight =>
    if id = passive then c else { c with pending := c.pending ++ [(id, weight)] }
  | .statement output kind overwrite => c.append output kind overwrite
  | .record r overwrite =>
    { c with records := c.records ++ [r] }.append passive (.external c.records.length) overwrite
  | .cut p => ⟨c.log.take p.statements, [], c.records.take p.externals⟩

def changes (c : Contents F) (cs : List (Change F)) : Contents F := cs.foldl change c

def Permits (hasPrimals : Bool) (c : Contents F) : Change F → Prop
  | .argument _ _ => True
  | .statement _ kind overwrite => overwrite.isSome = hasPrimals ∧ ∀ k, kind ≠ .external k
  | .record _ overwrite => overwrite.isSome = hasPrimals
  | .cut p => p.statements ≤ c.log.length ∧ p.externals ≤ c.records.length

def PermitsAll (hasPrimals : Bool) : Contents F → List (Change F) → Prop
  | _, [] => True
  | c, change :: cs => c.Permits hasPrimals change ∧ (c.change change).PermitsAll hasPrimals cs

theorem PermitsAll.append {hasPrimals : Bool} {c : Contents F} {cs cs' : List (Change F)}
    (h' : (c.changes cs).PermitsAll hasPrimals cs') (h : c.PermitsAll hasPrimals cs) :
    c.PermitsAll hasPrimals (cs ++ cs') := by
  induction cs generalizing c with
  | nil => exact h'
  | cons change cs ih => exact ⟨h.1, ih h' h.2⟩

structure Regular (hasPrimals : Bool) (c : Contents F) : Prop where
  isSome_overwrite : ∀ st ∈ c.log, st.overwrite.isSome = hasPrimals
  arguments_ne : ∀ st ∈ c.log, ∀ a ∈ st.arguments, a.1 ≠ passive
  pending_ne : ∀ a ∈ c.pending, a.1 ≠ passive

theorem regular_empty (hasPrimals : Bool) : (empty : Contents F).Regular hasPrimals :=
  ⟨nofun, nofun, nofun⟩

theorem Regular.append {hasPrimals : Bool} {c : Contents F} (h : c.Regular hasPrimals)
    (output : Identifier) (kind : StatementKind) {overwrite : Option (Overwrite F)}
    (ho : overwrite.isSome = hasPrimals) : (c.append output kind overwrite).Regular hasPrimals := by
  constructor
  · intro st hst
    rcases List.mem_append.mp hst with hst | hst
    · exact h.isSome_overwrite st hst
    · rw [List.mem_singleton.mp hst]
      exact ho
  · intro st hst
    rcases List.mem_append.mp hst with hst | hst
    · exact h.arguments_ne st hst
    · rw [List.mem_singleton.mp hst]
      exact h.pending_ne
  · intro a ha
    exact absurd ha List.not_mem_nil

theorem Regular.change {hasPrimals : Bool} {c : Contents F} (h : c.Regular hasPrimals)
    {change : Change F} (hc : c.Permits hasPrimals change) :
    (c.change change).Regular hasPrimals := by
  cases change with
  | argument id weight =>
    rw [Contents.change]
    split
    case isTrue => exact h
    case isFalse hid =>
      refine ⟨h.isSome_overwrite, h.arguments_ne, fun a ha => ?_⟩
      rcases List.mem_append.mp ha with ha | ha
      · exact h.pending_ne a ha
      · rw [List.mem_singleton.mp ha]
        exact hid
  | statement output kind overwrite => exact h.append output kind hc.1
  | record r overwrite =>
    have hadded : Regular hasPrimals { c with records := c.records ++ [r] } :=
      ⟨h.isSome_overwrite, h.arguments_ne, h.pending_ne⟩
    exact hadded.append passive _ hc
  | cut p =>
    exact ⟨fun st hst => h.isSome_overwrite st (List.mem_of_mem_take hst),
      fun st hst => h.arguments_ne st (List.mem_of_mem_take hst),
      fun a ha => absurd ha List.not_mem_nil⟩

theorem Regular.changes {hasPrimals : Bool} {c : Contents F} (h : c.Regular hasPrimals)
    {cs : List (Change F)} (hcs : c.PermitsAll hasPrimals cs) :
    (c.changes cs).Regular hasPrimals := by
  induction cs generalizing c with
  | nil => exact h
  | cons change cs ih => exact ih (h.change hcs.1) hcs.2

end Contents

end Autodiff
