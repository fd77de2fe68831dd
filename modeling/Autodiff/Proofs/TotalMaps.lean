import Autodiff.Proofs.Statelessness
/-!
A derivative vector as the total map that a reader sees. Two tapes that differ in nothing but the
lengths of their derivative vectors cannot be told apart, whatever is done to both.
-/

namespace Autodiff

inductive Tandem {ε α β : Type} (R : α → β → Prop) : Except ε α → Except ε β → Prop
  | ok {x y} (h : R x y) : Tandem R (.ok x) (.ok y)
  | error (e) : Tandem R (.error e) (.error e)

namespace Tandem

variable {ε α β γ δ : Type} {R : α → β → Prop} {S : γ → δ → Prop} {e : Except ε α} {e' : Except ε β}

theorem of_eq (e : Except ε α) : Tandem Eq e e := by
  cases e with
  | error fault => exact .error fault
  | ok x => exact .ok rfl

theorem bind {f : α → Except ε γ} {g : β → Except ε δ} (h : Tandem R e e')
    (hfg : ∀ x y, R x y → Tandem S (f x) (g y)) : Tandem S (e >>= f) (e' >>= g) := by
  cases h with
  | ok h => exact hfg _ _ h
  | error fault => exact .error fault

theorem bind_same {f : α → Except ε γ} {g : α → Except ε δ} (e : Except ε α)
    (hfg : ∀ x, Tandem S (f x) (g x)) : Tandem S (e >>= f) (e >>= g) :=
  (of_eq e).bind fun x _ h => h ▸ hfg x

theorem foldlM {step : α → γ → Except ε α} {step' : β → γ → Except ε β} {xs : List γ} {x : α}
    {y : β} (hstep : ∀ c ∈ xs, ∀ x y, R x y → Tandem R (step x c) (step' y c)) (h : R x y) :
    Tandem R (xs.foldlM step x) (xs.foldlM step' y) := by
  induction xs generalizing x y with
  | nil => exact .ok h
  | cons c xs ih =>
    rw [List.foldlM_cons, List.foldlM_cons]
    refine (hstep c List.mem_cons_self x y h).bind fun x₁ y₁ h₁ => ?_
    exact ih (fun c hc => hstep c (List.mem_cons_of_mem _ hc)) h₁

end Tandem

variable {F : Type} [Scalar F]

namespace Slots

theorem slot_resize_of_size_le {v : Slots F} {n : Nat} (h : v.size ≤ n) :
    (v.resize n).slot = v.slot := by
  funext id
  rw [slot_resize]
  split
  · rfl
  case isFalse hid =>
    exact (slot_of_size_le v id ((h.trans (le_max_left n 1)).trans (not_lt.mp hid))).symm

structure SameMap (v w : Slots F) : Prop where
  passive_eq : v.get passive = 0
  get_eq : w.get = v.get

namespace SameMap

variable {v w : Slots F}

theorem slot_eq (h : v.SameMap w) : w.slot = v.slot := by
  have hv : v.slot passive = 0 := h.passive_eq
  have hw : w.slot passive = 0 := (congrFun h.get_eq passive).trans h.passive_eq
  funext id
  rw [← get_eq_slot hv, ← get_eq_slot hw, h.get_eq]

theorem of_slot_eq (hslot : w.slot = v.slot) (hz : v.slot passive = 0) : v.SameMap w :=
  ⟨hz, get_congr hslot ((congrFun hslot passive).trans hz)⟩

theorem set (h : v.SameMap w) {id : Identifier} (hid : id ≠ passive) (x : F) :
    (v.set id x).SameMap (w.set id x) := by
  apply of_slot_eq
  · funext j
    rw [slot_set, slot_set, h.slot_eq]
  · rw [slot_set, if_neg hid]
    exact h.passive_eq

theorem modify (h : v.SameMap w) {id : Identifier} (hid : id ≠ passive) (f : F → F) :
    (v.modify id f).SameMap (w.modify id f) := by
  rw [Slots.modify, Slots.modify, h.slot_eq]
  exact h.set hid _

theorem ensure (h : v.SameMap w) (n : Identifier) : (v.ensure n).SameMap (w.ensure n) := by
  apply of_slot_eq
  · funext j
    rw [slot_ensure, slot_ensure, h.slot_eq]
  · rw [slot_ensure]
    exact h.passive_eq

theorem zeroAll (v w : Slots F) : v.zeroAll.SameMap w.zeroAll := by
  have hslot (u : Slots F) : u.zeroAll.slot = fun _ => 0 := by
    funext id
    cases id with
    | zero => rfl
    | succ k => simp [Slots.zeroAll, fill, mapSlots, slot, List.getD_eq_getElem?_getD]
  exact of_slot_eq ((hslot w).trans (hslot v).symm) rfl

theorem resize (h : v.SameMap w) {n : Nat} (hv : v.size ≤ n) (hw : w.size ≤ n) :
    (v.resize n).SameMap (w.resize n) := by
  apply of_slot_eq
  · rw [slot_resize_of_size_le hv, slot_resize_of_size_le hw, h.slot_eq]
  · rw [slot_resize_of_size_le hv]
    exact h.passive_eq

end SameMap

end Slots

structure Vectors.UpToLength (v w : Vectors F) : Prop where
  adjoints : v.adjoints.SameMap w.adjoints
  primals_eq : w.primals = v.primals

namespace Vectors.UpToLength

variable {v w : Vectors F}

theorem withAdjoints (h : v.UpToLength w) {a b : Slots F} (hab : a.SameMap b) :
    UpToLength ⟨a, v.primals⟩ ⟨b, w.primals⟩ := ⟨hab, h.primals_eq⟩

theorem gradient_eq (h : v.UpToLength w) (id : Identifier) : w.gradient id = v.gradient id :=
  congrFun h.adjoints.get_eq id

theorem touch (h : v.UpToLength w) (a : Action F) : (a.touch v).UpToLength (a.touch w) := by
  cases a with
  | setGradient id x =>
    rw [Action.touch, Action.touch, setGradient, setGradient]
    split
    case isTrue => exact h
    case isFalse hid => exact h.withAdjoints (h.adjoints.set hid x)
  | addGradient id x =>
    rw [Action.touch, Action.touch, addGradient, addGradient]
    split
    case isTrue => exact h
    case isFalse hid => exact h.withAdjoints (h.adjoints.modify hid _)
  | takeGradient id =>
    rw [Action.touch, Action.touch, takeGradient, takeGradient]
    split
    case isTrue => exact h
    case isFalse hid => exact h.withAdjoints (h.adjoints.set hid 0)
  | setPrimal id x =>
    rw [Action.touch, Action.touch, setPrimal, setPrimal, h.primals_eq]
    split
    · exact h
    · exact ⟨h.adjoints, rfl⟩
  | _ => exact h

theorem taken_eq (h : v.UpToLength w) (id : Identifier) :
    (w.takeGradient id).1 = (v.takeGradient id).1 := by
  rw [takeGradient_eq, takeGradient_eq, h.adjoints.slot_eq]

theorem hasPrimals_eq (h : v.UpToLength w) : w.hasPrimals = v.hasPrimals :=
  congrArg Option.isSome h.primals_eq

theorem primal_eq (h : v.UpToLength w) (id : Identifier) : w.primal id = v.primal id := by
  rw [primal, primal, h.primals_eq]

end Vectors.UpToLength

structure Replay.UpToLength (r r' : Replay F) : Prop where
  vectors : r.vectors.UpToLength r'.vectors
  rest_eq : r' = r.withVectors r'.vectors

namespace Replay.UpToLength

variable {r r' : Replay F}

theorem mk_withVectors {w : Vectors F} (h : r.vectors.UpToLength w) :
    r.UpToLength (r.withVectors w) := ⟨h, rfl⟩

theorem touch (h : r.UpToLength r') (a : Action F) :
    (r.withVectors (a.touch r.vectors)).UpToLength (r'.withVectors (a.touch r'.vectors)) := by
  obtain ⟨h, hrest⟩ := h
  rw [hrest]
  exact mk_withVectors (h.touch a)

end Replay.UpToLength

theorem Action.perform_upToLength {r r' : Replay F} (h : r.UpToLength r') (a : Action F) :
    Tandem (fun x y => y.1 = x.1 ∧ x.2.UpToLength y.2) (a.perform r) (a.perform r') := by
  obtain ⟨w, hw, rfl⟩ : ∃ w, r.vectors.UpToLength w ∧ r' = r.withVectors w :=
    ⟨_, h.vectors, h.rest_eq⟩
  cases a with
  | read side ty =>
    rw [perform, perform]
    cases side <;> exact .bind_same _ fun _ => .ok ⟨rfl, .mk_withVectors hw⟩
  | readMany side ty count =>
    rw [perform, perform]
    cases side <;> exact .bind_same _ fun _ => .ok ⟨rfl, .mk_withVectors hw⟩
  | remaining side =>
    cases side <;> exact .ok ⟨rfl, .mk_withVectors hw⟩
  | finish side =>
    rw [perform, perform]
    cases side <;> exact .bind_same _ fun _ => .ok ⟨rfl, .mk_withVectors hw⟩
  | returnIdentifiers b => exact .bind_same _ fun _ => .ok ⟨rfl, .mk_withVectors hw⟩
  | returnValues b => exact .bind_same _ fun _ => .ok ⟨rfl, .mk_withVectors hw⟩
  | gradient id => exact .ok ⟨hw.gradient_eq id, h⟩
  | setGradient id x => exact .ok ⟨rfl, h.touch (.setGradient id x)⟩
  | addGradient id x => exact .ok ⟨rfl, h.touch (.addGradient id x)⟩
  | takeGradient id => exact .ok ⟨hw.taken_eq id, h.touch (.takeGradient id)⟩
  | hasPrimals => exact .ok ⟨hw.hasPrimals_eq, h⟩
  | primal id => exact .ok ⟨hw.primal_eq id, h⟩
  | setPrimal id x => exact .ok ⟨rfl, h.touch (.setPrimal id x)⟩
  | _ => exact .ok ⟨rfl, .mk_withVectors hw⟩

theorem Program.run_upToLength {α : Type} (p : Program F α) {r r' : Replay F}
    (h : r.UpToLength r') :
    Tandem (fun x y => y.1 = x.1 ∧ x.2.UpToLength y.2) (p.run r) (p.run r') := by
  induction p generalizing r r' with
  | pure x => exact .ok ⟨rfl, h⟩
  | fail fault =>
    rw [h.rest_eq]
    exact .error _
  | perform a next ih =>
    have hnotes : r'.notes = r.notes := by
      rw [h.rest_eq]
      rfl
    have hperform := Action.perform_upToLength h a
    rw [run, run]
    generalize a.perform r = e at hperform
    generalize a.perform r' = e' at hperform
    cases hperform with
    | error fault =>
      rw [hnotes]
      exact .error _
    | @ok x y hxy =>
      obtain ⟨hresult, hreplay⟩ := hxy
      change Tandem _ ((next x.1).run x.2) ((next y.1).run y.2)
      rw [hresult]
      exact ih x.1 hreplay

structure Tape.UpToLength (t u : Tape F) : Prop where
  adjoints : t.vectors.adjoints.SameMap u.vectors.adjoints
  rest_eq : u = t.withAdjoints u.vectors.adjoints

namespace Tape.UpToLength

variable {t u : Tape F}

theorem mk_withAdjoints {w : Slots F} (h : t.vectors.adjoints.SameMap w) :
    t.UpToLength (t.withAdjoints w) := ⟨h, rfl⟩

theorem vectors (h : t.UpToLength u) : t.vectors.UpToLength u.vectors := by
  refine ⟨h.adjoints, ?_⟩
  rw [h.rest_eq]
  rfl

theorem gradient_eq (h : t.UpToLength u) (id : Identifier) : u.gradient id = t.gradient id :=
  h.vectors.gradient_eq id

theorem replace (h : t.UpToLength u) {v w : Vectors F} (hvw : v.UpToLength w) (pool : Pool F) :
    UpToLength { t with vectors := v, pool := pool } { u with vectors := w, pool := pool } := by
  refine ⟨hvw.adjoints, ?_⟩
  rw [h.rest_eq]
  change ({ t with vectors := w, pool := pool } : Tape F) =
    { t with vectors := ⟨w.adjoints, v.primals⟩, pool := pool }
  rw [← hvw.primals_eq]

theorem pool_eq (h : t.UpToLength u) : u.pool = t.pool := by
  rw [h.rest_eq]
  rfl

theorem withVectors (h : t.UpToLength u) {v w : Vectors F} (hvw : v.UpToLength w) :
    UpToLength { t with vectors := v } { u with vectors := w } := by
  rw [h.pool_eq]
  exact h.replace hvw t.pool

theorem withAdjoints (h : t.UpToLength u) {a b : Slots F} (hab : a.SameMap b) :
    (t.withAdjoints a).UpToLength (u.withAdjoints b) :=
  h.withVectors (h.vectors.withAdjoints hab)

theorem widen (h : t.UpToLength u) : t.widen.UpToLength u.widen := by
  have hlargest : u.issuer.largest = t.issuer.largest := by
    rw [h.rest_eq]
    rfl
  rw [Tape.widen, Tape.widen, hlargest]
  exact h.withVectors ⟨h.adjoints.ensure _, congrArg (Option.map _) h.vectors.primals_eq⟩

end Tape.UpToLength

namespace Statement

variable {st : Statement F} {v w : Slots F}

theorem tangent_eq_of_sameMap (h : v.SameMap w) : st.tangent w = st.tangent v := by
  rw [tangent, tangent, h.get_eq]

theorem Grounded.distribute_sameMap (hst : st.Grounded) (h : v.SameMap w) (adjoint : F) :
    (st.distribute adjoint v).SameMap (st.distribute adjoint w) := by
  have hfold (args : List (Identifier × F)) (hargs : ∀ arg ∈ args, arg.1 ≠ passive)
      {v w : Slots F} (h : v.SameMap w) :
      (args.foldl (fun v arg => v.modify arg.1 (· + arg.2 * adjoint)) v).SameMap
        (args.foldl (fun v arg => v.modify arg.1 (· + arg.2 * adjoint)) w) := by
    induction args generalizing v w with
    | nil => exact h
    | cons arg args ih =>
      apply ih fun arg harg => hargs arg (List.mem_cons_of_mem _ harg)
      exact h.modify (hargs arg List.mem_cons_self) _
  exact hfold st.arguments hst.arguments_ne h

theorem Grounded.propagate_sameMap (hst : st.Grounded) (hout : st.output ≠ passive)
    (h : v.SameMap w) : (st.propagate v).SameMap (st.propagate w) := by
  rw [propagate, propagate, h.get_eq]
  split
  · exact h
  · exact hst.distribute_sameMap (h.set hout 0) _

end Statement

structure Traced.UpToLength (s s' : Traced F) : Prop where
  tape : s.tape.UpToLength s'.tape
  notes_eq : s'.notes = s.notes

namespace Traced

variable {kernels : Kernels F} {s s' : Traced F} {st : Statement F}

namespace UpToLength

theorem mapTape (h : s.UpToLength s') {f g : Tape F → Tape F}
    (hfg : (f s.tape).UpToLength (g s'.tape)) : (s.mapTape f).UpToLength (s'.mapTape g) :=
  ⟨hfg, h.notes_eq⟩

theorem halt (h : s.UpToLength s') {α β : Type} {R : α → β → Prop} (fault : Fault) :
    Tandem R (s.halt fault) (s'.halt fault) := by
  rw [Traced.halt, Traced.halt, h.notes_eq]
  exact .error _

theorem attempt (h : s.UpToLength s') {α β : Type} {R : α → β → Prop} {e : Except Fault α}
    {e' : Except Fault β} (he : Tandem R e e') : Tandem R (s.attempt e) (s'.attempt e') := by
  cases he with
  | ok hxy => exact .ok hxy
  | error fault => exact h.halt fault

theorem replay (h : s.UpToLength s') (callback : Kernel F → Program F Unit) (k : Nat) :
    Tandem UpToLength (s.replay kernels callback k) (s'.replay kernels callback k) := by
  have hrecords : s'.tape.records = s.tape.records := by
    rw [h.tape.rest_eq]
    rfl
  rw [Traced.replay, Traced.replay, hrecords]
  cases s.tape.records[k]? with
  | none => exact h.halt _
  | some record =>
    refine (h.attempt (.of_eq (kernels.find record.token))).bind fun kernel _ hkernel => ?_
    rw [← hkernel]
    have hreplay : (s.tape.replayOf record s.tape.vectors s.notes).UpToLength
        (s'.tape.replayOf record s'.tape.vectors s'.notes) := by
      refine ⟨h.tape.vectors, ?_⟩
      rw [h.notes_eq, h.tape.rest_eq]
      rfl
    refine ((callback kernel).run_upToLength hreplay).bind ?_
    rintro x y ⟨-, hxy⟩
    refine .ok ⟨?_, ?_⟩
    · have hpool : y.2.pool = x.2.pool := by
        rw [hxy.rest_eq]
        rfl
      rw [hpool]
      exact h.tape.replace hxy.vectors x.2.pool
    · rw [hxy.rest_eq]
      rfl

theorem tangentStep (h : s.UpToLength s') (hst : st.Grounded) :
    Tandem UpToLength (s.tangentStep kernels st) (s'.tangentStep kernels st) := by
  rw [Traced.tangentStep, Traced.tangentStep]
  cases hkind : st.kind with
  | elementary =>
    have hout := hst.output_ne (by simp [hkind])
    refine .ok (h.mapTape (h.tape.withVectors ⟨?_, ?_⟩))
    · rw [Statement.tangent_eq_of_sameMap h.tape.adjoints]
      exact h.tape.adjoints.set hout _
    · exact congrArg (Option.map st.redo) h.tape.vectors.primals_eq
  | input =>
    refine .ok (h.mapTape (h.tape.withVectors ⟨h.tape.adjoints, ?_⟩))
    exact congrArg (Option.map st.redo) h.tape.vectors.primals_eq
  | external k => exact h.replay _ k

theorem undoPrimal {t u : Tape F} (h : t.UpToLength u) (st : Statement F) :
    (undoPrimal st t).UpToLength (undoPrimal st u) := by
  have htraits : u.traits = t.traits := by
    rw [h.rest_eq]
    rfl
  rw [Traced.undoPrimal, Traced.undoPrimal, htraits]
  split
  · exact h.withVectors ⟨h.adjoints, congrArg (Option.map st.undo) h.vectors.primals_eq⟩
  · exact h

theorem adjointStep (h : s.UpToLength s') (hst : st.Grounded) :
    Tandem UpToLength (s.adjointStep kernels st) (s'.adjointStep kernels st) := by
  rw [Traced.adjointStep, Traced.adjointStep]
  cases hkind : st.kind with
  | elementary =>
    have hundo := undoPrimal h.tape st
    refine .ok (h.mapTape (hundo.withAdjoints ?_))
    exact hst.propagate_sameMap (hst.output_ne (by simp [hkind])) hundo.adjoints
  | input => exact .ok (h.mapTape (undoPrimal h.tape st))
  | external k => exact h.replay _ k

end UpToLength

end Traced

namespace Tape

variable {kernels : Kernels F} {t u : Tape F}

theorem checkSpan_upToLength (h : t.UpToLength u) (start stop : Position) :
    u.checkSpan start stop = t.checkSpan start stop ∧ u.range start stop = t.range start stop := by
  rw [h.rest_eq]
  exact ⟨rfl, rfl⟩

theorem tangentSweep_upToLength (ht : t.Grounded) (h : t.UpToLength u) (start stop : Position) :
    Tandem Traced.UpToLength (t.tangentSweep kernels start stop)
      (u.tangentSweep kernels start stop) := by
  obtain ⟨hcheck, hrange⟩ := checkSpan_upToLength h start stop
  rw [tangentSweep, tangentSweep, hcheck, hrange]
  refine Tandem.bind_same _ fun _ => ?_
  split
  · exact .ok ⟨h, rfl⟩
  · refine Tandem.foldlM (fun st hst s s' hs => ?_) ⟨h.widen, rfl⟩
    exact hs.tangentStep (ht.log st (mem_of_mem_range hst))

theorem adjointSweep_upToLength (ht : t.Grounded) (h : t.UpToLength u) (start stop : Position) :
    Tandem Traced.UpToLength (t.adjointSweep kernels start stop)
      (u.adjointSweep kernels start stop) := by
  obtain ⟨hcheck, hrange⟩ := checkSpan_upToLength h start stop
  have htraits : u.traits = t.traits := by
    rw [h.rest_eq]
    rfl
  rw [adjointSweep, adjointSweep, hcheck, hrange, htraits]
  refine Tandem.bind_same _ fun _ => ?_
  split
  · exact .ok ⟨h, rfl⟩
  · have hwiden : Traced.UpToLength ⟨t.widen, []⟩ ⟨u.widen, []⟩ := ⟨h.widen, rfl⟩
    refine (Tandem.foldlM (fun st hst s s' hs => ?_) hwiden).bind fun s s' hs => ?_
    · exact hs.adjointStep (ht.log st (mem_of_mem_range (List.mem_reverse.mp hst)))
    · split
      · have hsaved : (Traced.mapTape ⟨u, []⟩ widen).tape.vectors.primals =
            (Traced.mapTape ⟨t, []⟩ widen).tape.vectors.primals := h.widen.vectors.primals_eq
        rw [hsaved]
        refine .ok (hs.mapTape ⟨hs.tape.adjoints, ?_⟩)
        rw [hs.tape.rest_eq]
        rfl
      · exact .ok hs

theorem deleteRecord_upToLength {s s' : Traced F} (h : s.UpToLength s') (record : Record F) :
    Tandem Traced.UpToLength (deleteRecord kernels s record) (deleteRecord kernels s' record) := by
  rw [deleteRecord, deleteRecord]
  refine (h.attempt (.of_eq (kernels.find record.token))).bind fun kernel _ hkernel => ?_
  have hreplay : s'.tape.replayOf record .none s'.notes =
      s.tape.replayOf record .none s.notes := by
    rw [h.notes_eq, h.tape.rest_eq]
    rfl
  rw [← hkernel, hreplay]
  refine Tandem.bind_same _ fun x => .ok ⟨?_, rfl⟩
  exact h.tape.replace h.tape.vectors x.2.pool

theorem deleteRecords_upToLength (h : t.UpToLength u) (start : Nat) :
    Tandem Traced.UpToLength (t.deleteRecords kernels start) (u.deleteRecords kernels start) := by
  have hrecords : u.records = t.records := by
    rw [h.rest_eq]
    rfl
  have hstart : Traced.UpToLength ⟨t, []⟩ ⟨u, []⟩ := ⟨h, rfl⟩
  rw [deleteRecords, deleteRecords, hrecords]
  refine (Tandem.foldlM (fun r _ s s' hs => deleteRecord_upToLength hs r) hstart).bind ?_
  refine fun s s' hs => .ok (hs.mapTape ⟨hs.tape.adjoints, ?_⟩)
  rw [hs.tape.rest_eq]
  rfl

theorem backTo_upToLength (h : t.UpToLength u) (p : Position) :
    Tandem Traced.UpToLength (t.backTo kernels p) (u.backTo kernels p) := by
  have hrest : u.issuer = t.issuer ∧ u.records = t.records ∧
      u.statementCount = t.statementCount := by
    rw [h.rest_eq]
    exact ⟨rfl, rfl, rfl⟩
  obtain ⟨hissuer, hrecords, hcount⟩ := hrest
  rw [backTo, backTo, hissuer, hrecords, hcount]
  split
  · refine (deleteRecords_upToLength h p.externals).bind fun s s' hs => ?_
    refine (hs.attempt (.of_eq (t.issuer.rewind p.largest))).bind fun m _ hm => ?_
    refine .ok (hs.mapTape ⟨hs.tape.adjoints, ?_⟩)
    rw [← hm, hs.tape.rest_eq]
    rfl
  · exact .error _

theorem clear_upToLength (h : t.UpToLength u) :
    Tandem Traced.UpToLength (t.clear kernels) (u.clear kernels) := by
  refine (backTo_upToLength h .zero).bind fun s s' hs => .ok (hs.mapTape ?_)
  exact hs.tape.withAdjoints (.zeroAll ..)

theorem shrink_upToLength (h : t.UpToLength u) : Tandem UpToLength t.shrink u.shrink := by
  rw [shrink, shrink, h.pool_eq]
  refine .bind_same _ fun pool => .ok ⟨⟨rfl, rfl⟩, ?_⟩
  rw [h.rest_eq]
  rfl

end Tape

end Autodiff
