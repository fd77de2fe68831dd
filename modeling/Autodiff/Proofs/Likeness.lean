import Autodiff.Proofs.Agreement
import Autodiff.Proofs.Grounding
/-!
Runs of callbacks, and sweeps, on vectors that read alike. A callback that looks at what a buffer
holds, and not at the room it keeps, does the same in both.
-/

namespace Autodiff

variable {F : Type} [Scalar F]

namespace Action

omit [Scalar F] in
def Alike (a : Action F) : a.Result → a.Result → Prop :=
  match a with
  | .lendIdentifiers _ => fun b b' => b.items = b'.items
  | .lendValues _ => fun b b' => b.items = b'.items
  | _ => fun x x' => x = x'

omit [Scalar F] in
def Within (known : Identifier → Prop) : Action F → Prop
  | .primal id => known id
  | _ => True

end Action

namespace Program

variable {α β : Type}

/-- Programs that take the same actions, whatever room their buffers have. -/
inductive Alike (R : α → β → Prop) : Program F α → Program F β → Prop
  | pure {x y} (h : R x y) : Alike R (.pure x) (.pure y)
  | fail (fault) : Alike R (.fail fault) (.fail fault)
  | perform (a : Action F) {next next'}
      (h : ∀ x x', a.Alike x x' → Alike R (next x) (next' x')) :
      Alike R (.perform a next) (.perform a next')
  | returnIdentifiers (b b') {next next'} (h : Alike R (next ()) (next' ())) :
      Alike R (.perform (.returnIdentifiers b) next) (.perform (.returnIdentifiers b') next')
  | returnValues (b b') {next next'} (h : Alike R (next ()) (next' ())) :
      Alike R (.perform (.returnValues b) next) (.perform (.returnValues b') next')
  | report (note note') {next next'} (h : Alike R (next ()) (next' ())) :
      Alike R (.perform (.report note) next) (.perform (.report note') next')

/-- What the program does is up to the contents of its buffers alone. -/
def Blind (p : Program F α) : Prop := Alike Eq p p

def Within (known : Identifier → Prop) : Program F α → Replay F → Prop
  | .perform a next, r => a.Within known ∧ ∀ x, a.perform r = .ok x → (next x.1).Within known x.2
  | _, _ => True

theorem within_of_forall {known : Identifier → Prop} (h : ∀ id, known id) (p : Program F α)
    (r : Replay F) : p.Within known r := by
  induction p generalizing r with
  | pure => trivial
  | fail => trivial
  | perform a next ih =>
    constructor
    · cases a <;> first | exact h _ | trivial
    · intro x _
      exact ih x.1 x.2

theorem Within.mono {known known' : Identifier → Prop} {p : Program F α} {r : Replay F}
    (h : p.Within known r) (hknown : ∀ id, known id → known' id) : p.Within known' r := by
  induction p generalizing r with
  | pure => trivial
  | fail => trivial
  | perform a next ih =>
    refine ⟨?_, fun x hx => ih x.1 (h.2 x hx)⟩
    cases a with
    | primal id => exact hknown id h.1
    | _ => trivial

end Program

namespace Vectors

/-- Vectors that answer alike, as far as the primals of known identifiers go, keep doing so whatever
is written to both. -/
structure Bisimulation (known : Identifier → Prop) (V : Vectors F → Vectors F → Prop) : Prop where
  gradient_eq {v w} (h : V v w) (id : Identifier) : v.gradient id = w.gradient id
  taken_eq {v w} (h : V v w) (id : Identifier) : (v.takeGradient id).1 = (w.takeGradient id).1
  hasPrimals_eq {v w} (h : V v w) : v.hasPrimals = w.hasPrimals
  primal_eq {v w} (h : V v w) (id : Identifier) (hid : known id) : v.primal id = w.primal id
  touch {v w} (h : V v w) (a : Action F) : V (a.touch v) (a.touch w)
  propagate {v w} (h : V v w) {st : Statement F} (hst : st.Grounded) (hout : st.output ≠ passive) :
    V ⟨st.propagate v.adjoints, v.primals⟩ ⟨st.propagate w.adjoints, w.primals⟩
  undo {v w} (h : V v w) {st : Statement F} (hout : st.output ≠ passive) :
    V ⟨v.adjoints, v.primals.map st.undo⟩ ⟨w.adjoints, w.primals.map st.undo⟩

theorem bisimulation_eq (known : Identifier → Prop) :
    Bisimulation known (Eq : Vectors F → Vectors F → Prop) where
  gradient_eq h _ := congrArg (Vectors.gradient · _) h
  taken_eq h _ := congrArg (fun v => (Vectors.takeGradient v _).1) h
  hasPrimals_eq h := congrArg Vectors.hasPrimals h
  primal_eq h _ _ := congrArg (Vectors.primal · _) h
  touch h a := congrArg a.touch h
  propagate h _ _ _ := by rw [h]
  undo h _ _ := by rw [h]

structure Reads (known : Identifier → Prop) (v w : Vectors F) : Prop where
  adjoint_eq : v.adjoints.slot = w.adjoints.slot
  passive_eq : v.adjoints.slot passive = 0
  hasPrimals_eq : v.hasPrimals = w.hasPrimals
  primal_eq : ∀ p ∈ v.primals, ∀ q ∈ w.primals, p.slot passive = 0 ∧ q.slot passive = 0 ∧
    ∀ id, known id → p.slot id = q.slot id

namespace Reads

variable {known : Identifier → Prop} {v w : Vectors F}

theorem of_primals_eq (ha : v.adjoints.slot = w.adjoints.slot) (hz : v.adjoints.slot passive = 0)
    (hp : w.primals = v.primals) (hprimals : ∀ p ∈ v.primals, p.slot passive = 0) :
    v.Reads known w := by
  refine ⟨ha, hz, congrArg Option.isSome hp.symm, fun p hv q hw => ?_⟩
  rw [hp] at hw
  obtain rfl := Option.mem_unique hv hw
  exact ⟨hprimals p hv, hprimals p hv, fun _ _ => rfl⟩

theorem withAdjoints (h : v.Reads known w) {a b : Slots F} (hab : a.slot = b.slot)
    (ha : a.slot passive = 0) : Reads known ⟨a, v.primals⟩ ⟨b, w.primals⟩ :=
  ⟨hab, ha, h.hasPrimals_eq, h.primal_eq⟩

theorem mapSet (h : v.Reads known w) {id : Identifier} (hid : id ≠ passive) (x : F) :
    Reads known ⟨v.adjoints, v.primals.map (·.set id x)⟩
      ⟨w.adjoints, w.primals.map (·.set id x)⟩ := by
  refine ⟨h.adjoint_eq, h.passive_eq, ?_, ?_⟩
  · rw [hasPrimals_map, hasPrimals_map]
    exact h.hasPrimals_eq
  · intro p hp q hq
    obtain ⟨p₀, hp₀, rfl⟩ := Option.mem_map.mp hp
    obtain ⟨q₀, hq₀, rfl⟩ := Option.mem_map.mp hq
    obtain ⟨hp, hq, hpq⟩ := h.primal_eq p₀ hp₀ q₀ hq₀
    refine ⟨?_, ?_, fun i hi => ?_⟩
    · rw [Slots.slot_set, if_neg hid, hp]
    · rw [Slots.slot_set, if_neg hid, hq]
    · rw [Slots.slot_set, Slots.slot_set, hpq i hi]

theorem touch (h : v.Reads known w) (a : Action F) : (a.touch v).Reads known (a.touch w) := by
  cases a with
  | setGradient id x =>
    rw [Action.touch, Action.touch, setGradient_eq, setGradient_eq]
    apply h.withAdjoints (Slots.scatter_congr h.adjoint_eq _)
    rw [Slots.slot_scatter, overwrite_passive, h.passive_eq]
  | addGradient id x =>
    rw [Action.touch, Action.touch, addGradient_eq, addGradient_eq]
    apply h.withAdjoints (Slots.accumulate_congr h.adjoint_eq _)
    rw [Slots.slot_accumulate_passive, h.passive_eq]
  | takeGradient id =>
    rw [Action.touch, Action.touch, takeGradient_eq, takeGradient_eq]
    apply h.withAdjoints (Slots.scatter_congr h.adjoint_eq _)
    rw [Slots.slot_scatter, overwrite_passive, h.passive_eq]
  | setPrimal id x =>
    rw [Action.touch, Action.touch, setPrimal, setPrimal]
    split
    case isTrue => exact h
    case isFalse hid => exact h.mapSet hid x
  | _ => exact h

theorem propagate (h : v.Reads known w) {st : Statement F} (hst : st.Grounded)
    (hout : st.output ≠ passive) :
    Reads known ⟨st.propagate v.adjoints, v.primals⟩ ⟨st.propagate w.adjoints, w.primals⟩ := by
  apply h.withAdjoints
  · rw [Statement.propagate, Statement.propagate, Slots.get_congr h.adjoint_eq h.passive_eq]
    split
    · exact h.adjoint_eq
    · refine (Event.distribute_congr hst.arguments_ne _ ?_ ?_).1
      · funext id
        rw [Slots.slot_set, Slots.slot_set, h.adjoint_eq]
      · rw [Slots.slot_set, if_neg hout, h.passive_eq]
  · rw [hst.slot_propagate hout, h.passive_eq]

theorem undo (h : v.Reads known w) {st : Statement F} (hout : st.output ≠ passive) :
    Reads known ⟨v.adjoints, v.primals.map st.undo⟩ ⟨w.adjoints, w.primals.map st.undo⟩ := by
  cases ho : st.overwrite with
  | none =>
    have hundo : st.undo = id := by
      funext p
      rw [Statement.undo, ho]
      rfl
    rw [hundo, Option.map_id]
    exact h
  | some o =>
    have hundo : st.undo = fun p : Slots F => p.set st.output o.old := by
      funext p
      rw [Statement.undo, ho]
    rw [hundo]
    exact h.mapSet hout o.old

theorem primal_eq_of_known (h : v.Reads known w) {id : Identifier} (hid : known id) :
    v.primal id = w.primal id := by
  have hp := h.hasPrimals_eq
  rw [primal, primal]
  cases hv : v.primals with
  | none =>
    cases hw : w.primals with
    | none => rfl
    | some q => simp [hasPrimals, hv, hw] at hp
  | some p =>
    cases hw : w.primals with
    | none => simp [hasPrimals, hv, hw] at hp
    | some q =>
      obtain ⟨hp, hq, hpq⟩ := h.primal_eq p hv q hw
      change p.get id = q.get id
      rw [Slots.get_eq_slot hp, Slots.get_eq_slot hq, hpq id hid]

end Reads

theorem bisimulation_reads (known : Identifier → Prop) :
    Bisimulation known (Reads (F := F) known) where
  gradient_eq h id := congrFun (Slots.get_congr h.adjoint_eq h.passive_eq) id
  taken_eq h id := by rw [takeGradient_eq, takeGradient_eq, h.adjoint_eq]
  hasPrimals_eq h := h.hasPrimals_eq
  primal_eq h _ hid := h.primal_eq_of_known hid
  touch h a := h.touch a
  propagate h _ hst hout := h.propagate hst hout
  undo h _ hout := h.undo hout

end Vectors

structure Replay.Alike (V : Vectors F → Vectors F → Prop) (r r' : Replay F) : Prop where
  traits_eq : r'.traits = r.traits
  fixed_eq : r'.fixed = r.fixed
  dynamic_eq : r'.dynamic = r.dynamic
  lent_eq : r'.pool.lent = r.pool.lent
  vectors : V r.vectors r'.vectors

section Runs

variable {known : Identifier → Prop} {V : Vectors F → Vectors F → Prop} {r r' : Replay F}

theorem Replay.Alike.reader_eq (h : r.Alike V r') (side : Side) :
    r'.reader side = r.reader side := by
  cases side with
  | fixed => exact h.fixed_eq
  | dynamic => exact h.dynamic_eq

theorem Replay.Alike.withReader (h : r.Alike V r') (side : Side) (reader : Reader F) :
    (r.withReader side reader).Alike V (r'.withReader side reader) := by
  cases side with
  | fixed => exact ⟨h.traits_eq, rfl, h.dynamic_eq, h.lent_eq, h.vectors⟩
  | dynamic => exact ⟨h.traits_eq, h.fixed_eq, rfl, h.lent_eq, h.vectors⟩

theorem Replay.Alike.withPool (h : r.Alike V r') {pool pool' : Pool F}
    (hl : pool'.lent = pool.lent) : (r.withPool pool).Alike V (r'.withPool pool') :=
  ⟨h.traits_eq, h.fixed_eq, h.dynamic_eq, hl, h.vectors⟩

theorem Replay.Alike.withVectors (h : r.Alike V r') {v w : Vectors F} (hv : V v w) :
    (r.withVectors v).Alike V (r'.withVectors w) :=
  ⟨h.traits_eq, h.fixed_eq, h.dynamic_eq, h.lent_eq, hv⟩

theorem Pool.returnIdentifiers_lent {pool pool' pool₁ : Pool F} {b : Buffer Identifier}
    (b' : Buffer Identifier) (hl : pool'.lent = pool.lent)
    (h : pool.returnIdentifiers b = .ok pool₁) :
    Yields (pool'.returnIdentifiers b') fun pool₁' => pool₁'.lent = pool₁.lent := by
  rw [returnIdentifiers] at h ⊢
  split at h
  case isTrue => cases h
  case isFalse hlent =>
    cases h
    rw [if_neg (hl ▸ hlent)]
    exact .ok (congrArg (· - 1) hl)

theorem Pool.returnValues_lent {pool pool' pool₁ : Pool F} {b : Buffer F} (b' : Buffer F)
    (hl : pool'.lent = pool.lent) (h : pool.returnValues b = .ok pool₁) :
    Yields (pool'.returnValues b') fun pool₁' => pool₁'.lent = pool₁.lent := by
  rw [returnValues] at h ⊢
  split at h
  case isTrue => cases h
  case isFalse hlent =>
    cases h
    rw [if_neg (hl ▸ hlent)]
    exact .ok (congrArg (· - 1) hl)

theorem Action.returnIdentifiers_alike {b : Buffer Identifier} (b' : Buffer Identifier)
    (hr : r.Alike V r') {x : Unit × Replay F} (h : (returnIdentifiers b).perform r = .ok x) :
    Yields ((returnIdentifiers b').perform r') fun y => x.2.Alike V y.2 := by
  obtain ⟨pool, hreturn, h⟩ := exists_of_bind_eq_ok h
  cases h
  exact (Pool.returnIdentifiers_lent b' hr.lent_eq hreturn).bind fun _ hl => .ok (hr.withPool hl)

theorem Action.returnValues_alike {b : Buffer F} (b' : Buffer F) (hr : r.Alike V r')
    {x : Unit × Replay F} (h : (returnValues b).perform r = .ok x) :
    Yields ((returnValues b').perform r') fun y => x.2.Alike V y.2 := by
  obtain ⟨pool, hreturn, h⟩ := exists_of_bind_eq_ok h
  cases h
  exact (Pool.returnValues_lent b' hr.lent_eq hreturn).bind fun _ hl => .ok (hr.withPool hl)

theorem Action.perform_alike (hV : Vectors.Bisimulation known V) (hr : r.Alike V r')
    {a : Action F} (ha : a.Within known) {x : a.Result × Replay F} (h : a.perform r = .ok x) :
    Yields (a.perform r') fun y => a.Alike x.1 y.1 ∧ x.2.Alike V y.2 := by
  cases a with
  | traits =>
    cases h
    exact .ok ⟨hr.traits_eq.symm, hr⟩
  | read side ty =>
    obtain ⟨⟨y, reader⟩, hread, h⟩ := exists_of_bind_eq_ok h
    cases h
    rw [perform, hr.reader_eq, hread]
    exact .ok ⟨rfl, hr.withReader side reader⟩
  | readMany side ty count =>
    obtain ⟨⟨y, reader⟩, hread, h⟩ := exists_of_bind_eq_ok h
    cases h
    rw [perform, hr.reader_eq, hread]
    exact .ok ⟨rfl, hr.withReader side reader⟩
  | remaining side =>
    cases h
    exact .ok ⟨congrArg Reader.remaining (hr.reader_eq side).symm, hr⟩
  | finish side =>
    obtain ⟨_, hfinish, h⟩ := exists_of_bind_eq_ok h
    cases h
    rw [perform, hr.reader_eq, hfinish]
    exact .ok ⟨rfl, hr⟩
  | lendIdentifiers n =>
    cases h
    exact .ok ⟨rfl, hr.withPool (congrArg (· + 1) hr.lent_eq)⟩
  | lendValues n =>
    cases h
    exact .ok ⟨rfl, hr.withPool (congrArg (· + 1) hr.lent_eq)⟩
  | returnIdentifiers b => exact (returnIdentifiers_alike b hr h).mono fun _ hr => ⟨rfl, hr⟩
  | returnValues b => exact (returnValues_alike b hr h).mono fun _ hr => ⟨rfl, hr⟩
  | poolIdle =>
    cases h
    exact .ok ⟨congrArg (· == 0) hr.lent_eq.symm, hr⟩
  | gradient id =>
    cases h
    exact .ok ⟨hV.gradient_eq hr.vectors id, hr⟩
  | setGradient id y =>
    cases h
    exact .ok ⟨rfl, hr.withVectors (hV.touch hr.vectors (.setGradient id y))⟩
  | addGradient id y =>
    cases h
    exact .ok ⟨rfl, hr.withVectors (hV.touch hr.vectors (.addGradient id y))⟩
  | takeGradient id =>
    cases h
    exact .ok ⟨hV.taken_eq hr.vectors id, hr.withVectors (hV.touch hr.vectors (.takeGradient id))⟩
  | hasPrimals =>
    cases h
    exact .ok ⟨hV.hasPrimals_eq hr.vectors, hr⟩
  | primal id =>
    cases h
    exact .ok ⟨hV.primal_eq hr.vectors id ha, hr⟩
  | setPrimal id y =>
    cases h
    exact .ok ⟨rfl, hr.withVectors (hV.touch hr.vectors (.setPrimal id y))⟩
  | report note =>
    cases h
    exact .ok ⟨rfl, hr.traits_eq, hr.fixed_eq, hr.dynamic_eq, hr.lent_eq, hr.vectors⟩

namespace Program

variable {α : Type} {a : Action F} {next : a.Result → Program F α}

theorem exists_of_run_perform {x : α × Replay F} (h : (perform a next).run r = .ok x) :
    ∃ s, a.perform r = .ok s ∧ (next s.1).run s.2 = .ok x := by
  rw [run] at h
  split at h
  case h_1 y r' ha => exact ⟨(y, r'), ha, h⟩
  case h_2 => cases h

theorem yields_perform {Q : α × Replay F → Prop}
    (h : Yields (a.perform r) fun s => Yields ((next s.1).run s.2) Q) :
    Yields ((perform a next).run r) Q := by
  obtain ⟨s, ha, h⟩ := h
  rw [run, ha]
  exact h

end Program

theorem Program.run_alike {α β : Type} {R : α → β → Prop} {p : Program F α} {q : Program F β}
    (hV : Vectors.Bisimulation known V) (hp : p.Alike R q) (hr : r.Alike V r')
    (hw : p.Within known r) {x : α × Replay F} (h : p.run r = .ok x) :
    Yields (q.run r') fun y => R x.1 y.1 ∧ x.2.Alike V y.2 := by
  induction hp generalizing r r' with
  | pure hxy =>
    cases h
    exact .ok ⟨hxy, hr⟩
  | fail => cases h
  | @perform a next next' _ ih =>
    obtain ⟨s, ha, h⟩ := exists_of_run_perform h
    apply yields_perform
    refine (Action.perform_alike hV hr hw.1 ha).mono fun s' ⟨halike, hreplay⟩ => ?_
    exact ih _ _ halike hreplay (hw.2 s ha) h
  | @returnIdentifiers b b' next next' _ ih =>
    obtain ⟨s, ha, h⟩ := exists_of_run_perform h
    apply yields_perform
    refine (Action.returnIdentifiers_alike b' hr ha).mono fun s' hreplay => ?_
    exact ih hreplay (hw.2 s ha) h
  | @returnValues b b' next next' _ ih =>
    obtain ⟨s, ha, h⟩ := exists_of_run_perform h
    apply yields_perform
    refine (Action.returnValues_alike b' hr ha).mono fun s' hreplay => ?_
    exact ih hreplay (hw.2 s ha) h
  | @report note note' next next' _ ih =>
    have hreplay : Replay.Alike V { r with notes := r.notes ++ [note] }
        { r' with notes := r'.notes ++ [note'] } :=
      ⟨hr.traits_eq, hr.fixed_eq, hr.dynamic_eq, hr.lent_eq, hr.vectors⟩
    exact ih hreplay (hw.2 _ rfl) h

end Runs

structure Replay.Opens (r : Replay F) (traits : Traits) (record : Record F) : Prop where
  traits_eq : r.traits = traits
  fixed_eq : r.fixed = .new "fixed" record.fixed
  dynamic_eq : r.dynamic = .new "dynamic" record.dynamic

def Record.Heeds (record : Record F) (kernels : Kernels F) (traits : Traits)
    (known : Identifier → Prop) : Prop :=
  ∀ kernel, kernels record.token = some kernel → kernel.reverse.Blind ∧
    ∀ r : Replay F, r.Opens traits record → kernel.reverse.Within known r

theorem Record.Heeds.mono {record : Record F} {kernels : Kernels F} {traits : Traits}
    {known known' : Identifier → Prop} (h : record.Heeds kernels traits known)
    (hknown : ∀ id, known id → known' id) : record.Heeds kernels traits known' := by
  intro kernel hkernel
  obtain ⟨hblind, hwithin⟩ := h kernel hkernel
  exact ⟨hblind, fun r hr => (hwithin r hr).mono hknown⟩

structure Tape.Alike (V : Vectors F → Vectors F → Prop) (t u : Tape F) : Prop where
  traits_eq : u.traits = t.traits
  records_eq : u.records = t.records
  lent_eq : u.pool.lent = t.pool.lent
  vectors : V t.vectors u.vectors

theorem Tape.Alike.replace {known : Identifier → Prop} {V : Vectors F → Vectors F → Prop}
    {t u : Tape F} (h : t.Alike V u) (hV : Vectors.Bisimulation known V) {v w : Vectors F}
    (hv : V v w) {pool pool' : Pool F} (hl : pool'.lent = pool.lent) :
    Tape.Alike V { t with vectors := v, pool := pool } { u with vectors := w, pool := pool' } :=
  ⟨congrArg₂ Traits.mk (hV.hasPrimals_eq hv).symm (congrArg Traits.linear h.traits_eq),
    h.records_eq, hl, hv⟩

namespace Traced

variable {known : Identifier → Prop} {V : Vectors F → Vectors F → Prop} {kernels : Kernels F}
  {s s' u : Traced F} {st : Statement F}

omit [Scalar F] in
theorem find_eq_ok {token : Token} {kernel : Kernel F} (h : kernels.find token = .ok kernel) :
    kernels token = some kernel := by
  rw [Kernels.find] at h
  split at h
  · cases h
    assumption
  · cases h

theorem replay_alike (hV : Vectors.Bisimulation known V) (hs : s.tape.Alike V s'.tape)
    (hheeds : ∀ record ∈ s.tape.records, record.Heeds kernels s.tape.traits known) {k : Nat}
    (h : s.replay kernels Kernel.reverse k = .ok u) :
    Yields (s'.replay kernels Kernel.reverse k) fun u' => u.tape.Alike V u'.tape := by
  rw [replay] at h ⊢
  rw [hs.records_eq]
  split at h
  case h_1 => cases h
  case h_2 record hrecord =>
    obtain ⟨kernel, hkernel, h⟩ := exists_of_bind_eq_ok h
    obtain ⟨⟨_, r⟩, hrun, h⟩ := exists_of_bind_eq_ok h
    cases h
    have hfind := attempt_eq_ok hkernel
    obtain ⟨hblind, hwithin⟩ := hheeds record (List.mem_of_getElem? hrecord) kernel
      (find_eq_ok hfind)
    have hreplay : (s.tape.replayOf record s.tape.vectors s.notes).Alike V
        (s'.tape.replayOf record s'.tape.vectors s'.notes) :=
      ⟨hs.traits_eq, rfl, rfl, hs.lent_eq, hs.vectors⟩
    obtain ⟨⟨_, r'⟩, hrun', -, hr⟩ := Program.run_alike hV hblind hreplay
      (hwithin _ ⟨rfl, rfl, rfl⟩) hrun
    refine ⟨⟨{ s'.tape with vectors := r'.vectors, pool := r'.pool }, r'.notes⟩, ?_,
      hs.replace hV hr.vectors hr.lent_eq⟩
    simp only [hfind, attempt]
    change (kernel.reverse.run _ >>= _) = _
    rw [hrun']
    rfl

theorem undoPrimal_alike (hV : Vectors.Bisimulation known V) {t t' : Tape F} (ht : t.Alike V t')
    (hout : st.output ≠ passive) : (undoPrimal st t).Alike V (undoPrimal st t') := by
  rw [undoPrimal, undoPrimal, ht.traits_eq]
  split
  · exact ht.replace hV (hV.undo ht.vectors hout) ht.lent_eq
  · exact ht

theorem adjointStep_alike (hV : Vectors.Bisimulation known V) (hst : st.Grounded)
    (hs : s.tape.Alike V s'.tape)
    (hheeds : ∀ record ∈ s.tape.records, record.Heeds kernels s.tape.traits known)
    (h : s.adjointStep kernels st = .ok u) :
    Yields (s'.adjointStep kernels st) fun u' => u.tape.Alike V u'.tape := by
  rw [adjointStep] at h ⊢
  split at h
  case h_1 hkind =>
    cases h
    have hout := hst.output_ne (by simp [hkind])
    have hundo := undoPrimal_alike hV hs hout
    exact .ok (hundo.replace hV (hV.propagate hundo.vectors hst hout) hundo.lent_eq)
  case h_2 hkind =>
    cases h
    exact .ok (undoPrimal_alike hV hs (hst.output_ne (by simp [hkind])))
  case h_3 k hkind => exact replay_alike hV hs hheeds h

theorem adjointFold_alike (hV : Vectors.Bisimulation known V) {log : List (Statement F)}
    (hlog : ∀ st ∈ log, st.Grounded) (hs : s.tape.Alike V s'.tape)
    (hheeds : ∀ record ∈ s.tape.records, record.Heeds kernels s.tape.traits known)
    (h : log.foldlM (adjointStep kernels) s = .ok u) :
    Yields (log.foldlM (adjointStep kernels) s') fun u' => u.tape.Alike V u'.tape := by
  induction log generalizing s s' with
  | nil =>
    cases h
    exact .ok hs
  | cons st log ih =>
    rw [List.foldlM_cons] at h ⊢
    obtain ⟨s₁, h₁, h⟩ := exists_of_bind_eq_ok h
    have hstep := adjointStep_alike hV (hlog st List.mem_cons_self) hs hheeds h₁
    have hlog' : ∀ st' ∈ log, st'.Grounded := fun st' h' => hlog st' (List.mem_cons_of_mem _ h')
    refine hstep.bind fun s₁' hs₁ => ih hlog' hs₁ ?_ h
    have hsame := adjointStep_sameRecording h₁
    rw [hsame.records_eq, hsame.traits_eq]
    exact hheeds

end Traced

end Autodiff
