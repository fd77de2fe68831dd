import Autodiff.Proofs.Blindness
import Autodiff.Proofs.Contents

namespace Autodiff

variable {F : Type}

namespace Action

def Moves (id : Identifier) : Action F → Prop
  | setGradient j _ => j = id
  | addGradient j _ => j = id
  | takeGradient j => j = id
  | _ => False

/-- The action sees no vectors, and no more of the pool than the buffer that it borrows. -/
def OfBytes : Action F → Prop
  | traits => True
  | read _ _ => True
  | readMany _ _ _ => True
  | remaining _ => True
  | finish _ => True
  | lendIdentifiers _ => True
  | lendValues _ => True
  | _ => False

def Scatters (targets : List Identifier) : Action F → Prop
  | setGradient id _ => id ∈ targets
  | addGradient _ _ => False
  | takeGradient _ => False
  | _ => True

def Distributes (targets sources : List Identifier) : Action F → Prop
  | setGradient _ _ => False
  | addGradient id _ => id ∈ sources
  | takeGradient id => id ∈ targets
  | _ => True

variable {a : Action F} {id : Identifier} {targets sources : List Identifier}

theorem Scatters.mem (h : a.Scatters targets) (hid : a.Moves id) : id ∈ targets := by
  cases a with
  | setGradient j x => exact hid ▸ h
  | addGradient => exact h.elim
  | takeGradient => exact h.elim
  | _ => exact hid.elim

theorem Distributes.mem (h : a.Distributes targets sources) (hid : a.Moves id) :
    id ∈ targets ++ sources := by
  cases a with
  | setGradient => exact h.elim
  | addGradient j x => exact List.mem_append_right _ (hid ▸ h)
  | takeGradient j => exact List.mem_append_left _ (hid ▸ h)
  | _ => exact hid.elim

def Inert (a : Action F) : Prop := ∀ id, ¬ a.Moves id

theorem Inert.scatters (h : a.Inert) (targets : List Identifier) : a.Scatters targets := by
  cases a with
  | setGradient id x => exact absurd rfl (h id)
  | addGradient id x => exact h id rfl
  | takeGradient id => exact h id rfl
  | _ => trivial

theorem Inert.distributes (h : a.Inert) (targets sources : List Identifier) :
    a.Distributes targets sources := by
  cases a with
  | setGradient id x => exact h id rfl
  | addGradient id x => exact absurd rfl (h id)
  | takeGradient id => exact absurd rfl (h id)
  | _ => trivial

theorem OfBytes.inert (h : a.OfBytes) : a.Inert := by
  intro id hid
  cases a with
  | setGradient => exact h
  | addGradient => exact h
  | takeGradient => exact h
  | _ => exact hid

theorem slot_touch [Scalar F] {v : Vectors F} (hid : id = passive ∨ ¬ a.Moves id) :
    (a.touch v).adjoints.slot id = v.adjoints.slot id := by
  rcases hid with rfl | hid
  · exact (Vectors.SamePassive.touch a v).adjoint_eq
  · cases a with
    | setGradient j x =>
      rw [touch, Vectors.setGradient]
      split
      · rfl
      · exact (Slots.slot_set ..).trans (if_neg hid)
    | addGradient j x =>
      rw [touch, Vectors.addGradient]
      split
      · rfl
      · exact (Slots.slot_set ..).trans (if_neg hid)
    | takeGradient j =>
      rw [touch, Vectors.takeGradient]
      split
      · rfl
      · exact (Slots.slot_set ..).trans (if_neg hid)
    | setPrimal j x =>
      rw [touch, Vectors.setPrimal]
      split <;> rfl
    | _ => rfl

end Action

namespace Program

variable {α β : Type} {allowed : Action F → Prop} {Q : α → Prop} {S : β → Prop} {p : Program F α}

def Confined (allowed : Action F → Prop) (Q : α → Prop) : Program F α → Prop
  | pure x => Q x
  | fail _ => True
  | perform a next => allowed a ∧ ∀ x, (next x).Confined allowed Q

theorem Confined.bind {f : α → Program F β} (h : p.Confined allowed Q)
    (hf : ∀ x, Q x → (f x).Confined allowed S) : (p >>= f).Confined allowed S := by
  change (p.bind f).Confined allowed S
  induction p with
  | pure x => exact hf x h
  | fail fault => trivial
  | perform a next ih => exact ⟨h.1, fun x => ih x (h.2 x)⟩

theorem Confined.mono {allowed' : Action F → Prop} {Q' : α → Prop} (h : p.Confined allowed Q)
    (hallowed : ∀ a, allowed a → allowed' a) (hQ : ∀ x, Q x → Q' x) : p.Confined allowed' Q' := by
  induction p with
  | pure x => exact hQ x h
  | fail fault => trivial
  | perform a next ih => exact ⟨hallowed a h.1, fun x => ih x (h.2 x)⟩

theorem confined_act {a : Action F} (h : allowed a) :
    (act a).Confined allowed fun _ => True := ⟨h, fun _ => trivial⟩

theorem Confined.slot_eq [Scalar F] (hc : p.Confined allowed Q) {r : Replay F}
    {x : α × Replay F} (h : p.run r = .ok x) {id : Identifier}
    (hid : id = passive ∨ ∀ a : Action F, allowed a → ¬ a.Moves id) :
    x.2.vectors.adjoints.slot id = r.vectors.adjoints.slot id := by
  induction p generalizing r with
  | pure y =>
    cases h
    rfl
  | fail fault => cases h
  | perform a next ih =>
    obtain ⟨s, ha, h⟩ := exists_of_run_perform h
    rw [ih s.1 (hc.2 s.1) h, Action.vectors_perform ha]
    exact Action.slot_touch (hid.imp_right fun hid => hid a hc.1)

end Program

section Loops

open Program

variable {allowed : Action F → Prop}

theorem confined_lendStaged (h : ∀ a : Action F, a.OfBytes → allowed a) (k l m n : Nat) :
    (lendStaged (F := F) k l m n).Confined allowed fun _ => True := by
  refine (confined_act (h (.lendIdentifiers k) trivial)).bind fun _ _ => ?_
  refine (confined_act (h (.lendValues l) trivial)).bind fun _ _ => ?_
  refine (confined_act (h (.lendValues m) trivial)).bind fun _ _ => ?_
  exact (confined_act (h (.lendValues n) trivial)).bind fun _ _ => trivial

theorem confined_finishBoth : (finishBoth (F := F)).Confined Action.Inert fun _ => True :=
  ⟨nofun, fun _ => ⟨nofun, fun _ => trivial⟩⟩

theorem confined_reclaimAll (as : List (Staged F)) :
    (reclaimAll as).Confined Action.Inert fun _ => True := by
  induction as with
  | nil => trivial
  | cons a as ih => exact ⟨nofun, fun _ => ⟨nofun, fun _ => ⟨nofun, fun _ => ⟨nofun, fun _ => ih⟩⟩⟩⟩

theorem confined_setGradients {targets ids : List Identifier} (hids : ∀ id ∈ ids, id ∈ targets)
    (gs : List F) : (setGradients ids gs).Confined (Action.Scatters targets) fun _ => True := by
  induction ids generalizing gs with
  | nil => trivial
  | cons id ids ih =>
    cases gs with
    | nil => trivial
    | cons g gs =>
      exact ⟨hids id List.mem_cons_self, fun _ =>
        ih (fun j hj => hids j (List.mem_cons_of_mem _ hj)) gs⟩

theorem confined_takeGradients {targets sources ids : List Identifier}
    (hids : ∀ id ∈ ids, id ∈ targets) : (takeGradients (F := F) ids).Confined
      (Action.Distributes targets sources) fun _ => True := by
  induction ids with
  | nil => trivial
  | cons id ids ih =>
    refine ⟨hids id List.mem_cons_self, fun _ => ?_⟩
    exact (ih fun j hj => hids j (List.mem_cons_of_mem _ hj)).bind fun _ _ => trivial

theorem confined_addGradients {targets sources ids : List Identifier}
    (hids : ∀ id ∈ ids, id ∈ sources) (gs : List F) :
    (addGradients ids gs).Confined (Action.Distributes targets sources) fun _ => True := by
  induction ids generalizing gs with
  | nil => trivial
  | cons id ids ih =>
    cases gs with
    | nil => trivial
    | cons g gs =>
      exact ⟨hids id List.mem_cons_self, fun _ =>
        ih (fun j hj => hids j (List.mem_cons_of_mem _ hj)) gs⟩

theorem confined_gradients (ids : List Identifier) :
    (gradients (F := F) ids).Confined Action.Inert fun _ => True := by
  induction ids with
  | nil => trivial
  | cons id ids ih => exact ⟨nofun, fun _ => ih.bind fun _ _ => trivial⟩

end Loops

namespace Staged

variable {targets sources : List Identifier} (a : Staged F)

abbrev SameIds (b : Staged F) : Prop := b.identifiers.items = a.identifiers.items

theorem confined_gather : a.gather.Confined Action.Inert a.SameIds :=
  (confined_gradients _).bind fun _ _ => rfl

theorem confined_scatter (h : ∀ id ∈ a.identifiers.items, id ∈ targets) :
    a.scatter.Confined (Action.Scatters targets) fun _ => True := confined_setGradients h _

theorem confined_take (h : ∀ id ∈ a.identifiers.items, id ∈ targets) :
    a.take.Confined (Action.Distributes targets sources) a.SameIds :=
  (confined_takeGradients h).bind fun _ _ => rfl

theorem confined_accumulate (h : ∀ id ∈ a.identifiers.items, id ∈ sources) :
    a.accumulate.Confined (Action.Distributes targets sources) fun _ => True :=
  confined_addGradients h _

end Staged

structure Replay.SameBytes [Scalar F] (r r' : Replay F) : Prop where
  traits_eq : r'.traits = r.traits
  fixed_eq : r'.fixed = r.fixed
  dynamic_eq : r'.dynamic = r.dynamic

section Bytes

variable [Scalar F]

theorem Action.perform_sameBytes {a : Action F} (ha : a.OfBytes) {r r' : Replay F}
    (hr : r.SameBytes r') {x : a.Result × Replay F} (h : a.perform r = .ok x) :
    Yields (a.perform r') fun y => a.Alike x.1 y.1 ∧ x.2.SameBytes y.2 := by
  have hreader (side : Side) : r'.reader side = r.reader side := by
    cases side with
    | fixed => exact hr.fixed_eq
    | dynamic => exact hr.dynamic_eq
  have hwith (side : Side) (reader : Reader F) :
      (r.withReader side reader).SameBytes (r'.withReader side reader) := by
    cases side with
    | fixed => exact ⟨hr.traits_eq, rfl, hr.dynamic_eq⟩
    | dynamic => exact ⟨hr.traits_eq, hr.fixed_eq, rfl⟩
  cases a with
  | traits =>
    cases h
    exact .ok ⟨hr.traits_eq.symm, hr⟩
  | read side ty =>
    obtain ⟨⟨y, reader⟩, hread, h⟩ := exists_of_bind_eq_ok h
    cases h
    rw [perform, hreader, hread]
    exact .ok ⟨rfl, hwith side reader⟩
  | readMany side ty count =>
    obtain ⟨⟨y, reader⟩, hread, h⟩ := exists_of_bind_eq_ok h
    cases h
    rw [perform, hreader, hread]
    exact .ok ⟨rfl, hwith side reader⟩
  | remaining side =>
    cases h
    exact .ok ⟨congrArg Reader.remaining (hreader side).symm, hr⟩
  | finish side =>
    obtain ⟨_, hfinish, h⟩ := exists_of_bind_eq_ok h
    cases h
    rw [perform, hreader, hfinish]
    exact .ok ⟨rfl, hr⟩
  | lendIdentifiers n =>
    cases h
    exact .ok ⟨rfl, hr.traits_eq, hr.fixed_eq, hr.dynamic_eq⟩
  | lendValues n =>
    cases h
    exact .ok ⟨rfl, hr.traits_eq, hr.fixed_eq, hr.dynamic_eq⟩
  | _ => exact ha.elim

theorem Program.Alike.run_sameBytes {α β : Type} {R : α → β → Prop} {Q : α → Prop}
    {p : Program F α} {q : Program F β} (hp : p.Alike R q) (hc : p.Confined Action.OfBytes Q)
    {r r' : Replay F} (hr : r.SameBytes r') {x : α × Replay F} (h : p.run r = .ok x) :
    Yields (q.run r') fun y => R x.1 y.1 ∧ x.2.SameBytes y.2 := by
  induction hp generalizing r r' with
  | pure hxy =>
    cases h
    exact .ok ⟨hxy, hr⟩
  | fail => cases h
  | perform a _ ih =>
    obtain ⟨s, ha, h⟩ := exists_of_run_perform h
    apply yields_perform
    refine (Action.perform_sameBytes hc.1 hr ha).mono fun s' ⟨halike, hbytes⟩ => ?_
    exact ih _ _ halike (hc.2 s.1) hbytes h
  | returnIdentifiers => exact hc.1.elim
  | returnValues => exact hc.1.elim
  | report => exact hc.1.elim

end Bytes

namespace Schema

open Program (act confined_act)

theorem confined_setPrimals (ids : List Identifier) (xs : List F) :
    (setPrimals ids xs).Confined Action.Inert fun _ => True := by
  induction ids generalizing xs with
  | nil => trivial
  | cons id ids ih =>
    cases xs with
    | nil => trivial
    | cons x xs => exact ⟨nofun, fun _ => ih xs⟩

theorem confined_rollBack (s : Schema F) (a : s.Record) :
    (s.rollBack a).Confined Action.Inert fun _ => True := by
  induction s with
  | done => trivial
  | scalar ty next ih => exact ih _ a.2
  | input n use next ih => exact ih a.2
  | output n next ih => exact (confined_setPrimals _ _).bind fun _ _ => ih a.2

theorem confined_fetch (ids : List Identifier) (xs : List F) :
    (fetch ids xs).Confined Action.Inert fun _ => True := by
  induction ids generalizing xs with
  | nil => trivial
  | cons id ids ih =>
    cases xs with
    | nil => trivial
    | cons x xs =>
      rw [fetch]
      split
      · exact (ih xs).bind fun _ _ => trivial
      · exact ⟨fun _ h => h, fun _ => (ih xs).bind fun _ _ => trivial⟩

theorem confined_fetchInput (traits : Traits) (use : InputRole) (a : Staged F) :
    (fetchInput traits use a).Confined Action.Inert a.SameIds := by
  rw [fetchInput]
  cases use.origin traits with
  | primalVector => exact (confined_fetch _ _).bind fun _ _ => rfl
  | _ => exact rfl

structure SameNames (s : Schema F) (a b : s.Record) : Prop where
  inputIds_eq : s.inputIds b = s.inputIds a
  outputIds_eq : s.outputIds b = s.outputIds a

theorem confined_fetchPrimals (traits : Traits) (s : Schema F) (a : s.Record) :
    (s.fetchPrimals traits a).Confined Action.Inert (s.SameNames a) := by
  induction s with
  | done => exact ⟨rfl, rfl⟩
  | scalar ty next ih => exact (ih _ a.2).bind fun b hb => ⟨hb.inputIds_eq, hb.outputIds_eq⟩
  | input n use next ih =>
    refine (confined_fetchInput traits use a.1).bind fun b hb => (ih a.2).bind fun c hc => ?_
    exact ⟨congrArg₂ (· ++ ·) hb hc.inputIds_eq, hc.outputIds_eq⟩
  | output n next ih =>
    refine (ih a.2).bind fun c hc => ?_
    exact ⟨hc.inputIds_eq, congrArg (a.1.identifiers.items ++ ·) hc.outputIds_eq⟩

theorem Alike.sameNames {s : Schema F} {a b : s.Record} (h : s.Alike a b) : s.SameNames a b := by
  induction s with
  | done => exact ⟨rfl, rfl⟩
  | scalar ty next ih =>
    obtain ⟨rest, rfl, h⟩ := h
    have hrest := ih _ h
    exact ⟨hrest.inputIds_eq, hrest.outputIds_eq⟩
  | input n use next ih =>
    have hrest := ih h.2
    exact ⟨congrArg₂ (· ++ ·) h.1.identifiers_eq.symm hrest.inputIds_eq, hrest.outputIds_eq⟩
  | output n next ih =>
    have hrest := ih h.2
    exact ⟨hrest.inputIds_eq, congrArg₂ (· ++ ·) h.1.identifiers_eq.symm hrest.outputIds_eq⟩

theorem confined_release (s : Schema F) (a : s.Record) :
    (s.release a).Confined Action.Inert fun _ => True := by
  refine (confined_reclaimAll _).bind fun _ _ => ⟨nofun, fun idle => ?_⟩
  cases idle <;> trivial

variable [Scalar F]

theorem confined_restorePassive (ids : List Identifier) :
    (restorePassive (F := F) ids).Confined Action.OfBytes fun _ => True := by
  induction ids with
  | nil => trivial
  | cons id ids ih =>
    rw [restorePassive]
    split
    · exact ⟨trivial, fun _ => ih.bind fun _ _ => trivial⟩
    · exact ih.bind fun _ _ => trivial

theorem confined_restoreInput (traits : Traits) (n : Nat) (use : InputRole) :
    (restoreInput (F := F) traits n use).Confined Action.OfBytes fun _ => True := by
  refine (confined_lendStaged (fun _ h => h) _ _ _ _).bind fun a _ => ?_
  have hvalues (ids : List Identifier) {p : Program F (List F)}
      (hp : p.Confined Action.OfBytes fun _ => True) :
      (p >>= fun xs => pure (Staged.withValues
        { a with identifiers := a.identifiers.fill ids } xs)).Confined Action.OfBytes
          fun _ => True := hp.bind fun _ _ => trivial
  have hreal : (act (F := F) (.readMany .dynamic .real n)).Confined Action.OfBytes
      fun _ => True := confined_act trivial
  cases hactive : use.active with
  | true =>
    simp only [if_true]
    refine ⟨trivial, fun ids => ?_⟩
    cases use.origin traits with
    | absent => trivial
    | written => exact hvalues ids hreal
    | primalVector => exact hvalues ids (confined_restorePassive ids)
  | false =>
    simp only [Bool.false_eq_true, if_false]
    cases use.origin traits with
    | absent => trivial
    | written => exact hvalues [] hreal
    | primalVector => exact hvalues [] (confined_restorePassive [])

omit [Scalar F] in
theorem confined_restoreOutput (traits : Traits) (n : Nat) :
    (restoreOutput (F := F) traits n).Confined Action.OfBytes fun _ => True := by
  refine (confined_lendStaged (fun _ h => h) _ _ _ _).bind fun _ _ => ?_
  exact ⟨trivial, fun _ => ⟨trivial, fun _ => trivial⟩⟩

theorem confined_restore (traits : Traits) (s : Schema F) :
    (s.restore traits).Confined Action.OfBytes fun _ => True := by
  induction s with
  | done => trivial
  | scalar ty next ih => exact ⟨trivial, fun x => (ih x).bind fun _ _ => trivial⟩
  | input n use next ih =>
    exact (confined_restoreInput traits n use).bind fun _ _ => ih.bind fun _ _ => trivial
  | output n next ih =>
    exact (confined_restoreOutput traits n).bind fun _ _ => ih.bind fun _ _ => trivial

end Schema

end Autodiff
