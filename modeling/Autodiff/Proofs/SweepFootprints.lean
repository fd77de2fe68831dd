import Autodiff.Proofs.Footprints
import Autodiff.Proofs.Usage

namespace Autodiff

variable {F : Type} [Scalar F]

namespace Statement.Grounded

variable {st : Statement F} {v : Slots F} {id : Identifier}

theorem slot_distribute_of_notMem (adjoint : F) (hid : id ∉ st.arguments.map Prod.fst) :
    (st.distribute adjoint v).slot id = v.slot id := by
  have hfold (args : List (Identifier × F)) (hargs : id ∉ args.map Prod.fst) (v : Slots F) :
      (args.foldl (fun v arg => v.modify arg.1 (· + arg.2 * adjoint)) v).slot id = v.slot id := by
    induction args generalizing v with
    | nil => rfl
    | cons arg args ih =>
      obtain ⟨hne, hrest⟩ := not_or.mp fun h => hargs (List.mem_cons.mpr h)
      rw [List.foldl_cons, ih hrest, Slots.modify, Slots.slot_set, if_neg (Ne.symm hne)]
  exact hfold st.arguments hid v

theorem slot_propagate_of_notMem (hid : id ∉ st.output :: st.arguments.map Prod.fst) :
    (st.propagate v).slot id = v.slot id := by
  obtain ⟨hne, hrest⟩ := not_or.mp fun h => hid (List.mem_cons.mpr h)
  rw [propagate]
  split
  · rfl
  · rw [slot_distribute_of_notMem _ hrest, Slots.slot_set, if_neg (Ne.symm hne)]

end Statement.Grounded

namespace Tape

def tangentReach (t : Tape F) (schemas : Token → Schema F) (st : Statement F) : List Identifier :=
  match st.kind with
  | .elementary => [st.output]
  | .input => []
  | .external k =>
    (t.records[k]?.map fun record => record.targets t.traits (schemas record.token)).getD []

def adjointReach (t : Tape F) (schemas : Token → Schema F) (st : Statement F) : List Identifier :=
  match st.kind with
  | .elementary => st.output :: st.arguments.map Prod.fst
  | .input => []
  | .external k => (t.records[k]?.map fun record =>
      record.targets t.traits (schemas record.token) ++
        record.sources t.traits (schemas record.token)).getD []

def Abides (t : Tape F) (kernels : Kernels F) (schemas : Token → Schema F) : Prop :=
  ∀ record ∈ t.records, ∀ kernel, kernels record.token = some kernel →
    kernel.Abides (schemas record.token)

def Spares (t : Tape F) (reach : Statement F → List Identifier) (start stop : Position)
    (id : Identifier) : Prop :=
  id = passive ∨ ∀ st ∈ t.range start stop, id ∉ reach st

instance (t : Tape F) (reach : Statement F → List Identifier) (start stop : Position)
    (id : Identifier) : Decidable (t.Spares reach start stop id) :=
  inferInstanceAs (Decidable (_ ∨ _))

end Tape

namespace Traced

variable {kernels : Kernels F} {schemas : Token → Schema F} {s s' : Traced F} {st : Statement F}
  {id : Identifier}

theorem replay_slot {callback : Kernel F → Program F Unit} {k : Nat}
    {named : Record F → List Identifier}
    (hcallback : ∀ record ∈ s.tape.records[k]?, ∀ kernel, kernels record.token = some kernel →
      ∀ (r : Replay F) x, r.Opens s.tape.traits record → (callback kernel).run r = .ok x →
        id = passive ∨ id ∉ named record →
          x.2.vectors.adjoints.slot id = r.vectors.adjoints.slot id)
    (hid : id = passive ∨ id ∉ (s.tape.records[k]?.map named).getD [])
    (h : s.replay kernels callback k = .ok s') :
    s'.tape.vectors.adjoints.slot id = s.tape.vectors.adjoints.slot id := by
  rw [replay] at h
  split at h
  case h_1 => cases h
  case h_2 record hrecord =>
    rw [hrecord] at hid hcallback
    obtain ⟨kernel, hkernel, h⟩ := exists_of_bind_eq_ok h
    obtain ⟨⟨_, r⟩, hrun, h⟩ := exists_of_bind_eq_ok h
    cases h
    exact hcallback record rfl kernel (find_eq_ok (attempt_eq_ok hkernel)) _ _ ⟨rfl, rfl, rfl⟩ hrun
      hid

variable (hk : s.tape.Abides kernels schemas)
include hk

theorem tangentStep_slot (hst : st.Grounded)
    (hid : id = passive ∨ id ∉ s.tape.tangentReach schemas st)
    (h : s.tangentStep kernels st = .ok s') :
    s'.tape.vectors.adjoints.slot id = s.tape.vectors.adjoints.slot id := by
  rw [tangentStep] at h
  rw [Tape.tangentReach] at hid
  split at h
  case h_1 hkind =>
    cases h
    rw [hkind] at hid
    have hout := hst.output_ne (by simp [hkind])
    refine (Slots.slot_set ..).trans (if_neg fun heq => ?_)
    rcases hid with rfl | hid
    · exact hout heq
    · exact hid (List.mem_singleton.mpr heq.symm)
  case h_2 hkind =>
    cases h
    rfl
  case h_3 k hkind =>
    rw [hkind] at hid
    exact replay_slot (fun record hrecord kernel hkernel r x hr hrun hid =>
      (hk record (List.mem_of_getElem? hrecord) kernel hkernel).slot_forward hr hrun hid) hid h

omit hk in
theorem undoPrimal_adjoints (st : Statement F) (t : Tape F) :
    (undoPrimal st t).vectors.adjoints = t.vectors.adjoints := by
  rw [undoPrimal]
  split <;> rfl

theorem adjointStep_slot (hst : st.Grounded)
    (hid : id = passive ∨ id ∉ s.tape.adjointReach schemas st)
    (h : s.adjointStep kernels st = .ok s') :
    s'.tape.vectors.adjoints.slot id = s.tape.vectors.adjoints.slot id := by
  rw [adjointStep] at h
  rw [Tape.adjointReach] at hid
  split at h
  case h_1 hkind =>
    cases h
    rw [hkind] at hid
    have hout := hst.output_ne (by simp [hkind])
    rw [← undoPrimal_adjoints st s.tape]
    change (st.propagate _).slot id = _
    rcases hid with rfl | hid
    · exact hst.slot_propagate hout _
    · exact Statement.Grounded.slot_propagate_of_notMem hid
  case h_2 hkind =>
    cases h
    exact congrArg (Slots.slot · id) (undoPrimal_adjoints st s.tape)
  case h_3 k hkind =>
    rw [hkind] at hid
    exact replay_slot (fun record hrecord kernel hkernel r x hr hrun hid =>
      (hk record (List.mem_of_getElem? hrecord) kernel hkernel).slot_reverse hr hrun hid) hid h

end Traced

namespace Tape

variable {kernels : Kernels F} {schemas : Token → Schema F} {t : Tape F} {s : Traced F}
  {start stop : Position} {id : Identifier}

theorem tangentReach_eq {u : Tape F} (h : t.SameRecording u) (st : Statement F) :
    u.tangentReach schemas st = t.tangentReach schemas st := by
  rw [tangentReach, tangentReach, h.records_eq, h.traits_eq]

theorem adjointReach_eq {u : Tape F} (h : t.SameRecording u) (st : Statement F) :
    u.adjointReach schemas st = t.adjointReach schemas st := by
  rw [adjointReach, adjointReach, h.records_eq, h.traits_eq]

theorem slot_of_foldlM {step : Traced F → Statement F → Except (Halt F) (Traced F)}
    (hsame : ∀ {s s' st}, step s st = .ok s' → s.tape.SameRecording s'.tape)
    {log : List (Statement F)} {s₀ : Traced F}
    (hstep : ∀ st ∈ log, ∀ {s s' : Traced F}, s₀.tape.SameRecording s.tape →
      step s st = .ok s' → s'.tape.vectors.adjoints.slot id = s.tape.vectors.adjoints.slot id)
    (h : log.foldlM step s₀ = .ok s) :
    s.tape.vectors.adjoints.slot id = s₀.tape.vectors.adjoints.slot id := by
  refine (foldlM_invariant (P := fun s₁ : Traced F => s₀.tape.SameRecording s₁.tape ∧
    s₁.tape.vectors.adjoints.slot id = s₀.tape.vectors.adjoints.slot id) ?_ ⟨.refl _, rfl⟩ h).2
  intro st hst s₁ s₂ ⟨hrecording, hslot⟩ hs
  exact ⟨hrecording.trans (hsame hs), (hstep st hst hrecording hs).trans hslot⟩

theorem Abides.of_sameRecording {u : Tape F} (hk : t.Abides kernels schemas)
    (h : t.SameRecording u) : u.Abides kernels schemas := by
  rw [Abides, h.records_eq]
  exact hk

variable (hk : t.Abides kernels schemas) (ht : t.Grounded)
include hk ht

theorem slot_tangentSweep (hid : t.Spares (t.tangentReach schemas) start stop id)
    (h : t.tangentSweep kernels start stop = .ok s) :
    s.tape.vectors.adjoints.slot id = t.vectors.adjoints.slot id := by
  rw [tangentSweep] at h
  obtain ⟨-, -, h⟩ := exists_of_bind_eq_ok h
  split at h
  · cases h
    rfl
  · refine Eq.trans (slot_of_foldlM Traced.tangentStep_sameRecording ?_ h)
      (t.vectors.adjoints.slot_ensure _ id)
    intro st hst s s' hsame hs
    have hsame := t.widen_sameRecording.trans hsame
    refine Traced.tangentStep_slot (hk.of_sameRecording hsame) (ht.log st (mem_of_mem_range hst)) ?_
      hs
    rw [tangentReach_eq hsame]
    exact hid.imp_right fun hid => hid st hst

theorem slot_adjointSweep (hid : t.Spares (t.adjointReach schemas) start stop id)
    (h : t.adjointSweep kernels start stop = .ok s) :
    s.tape.vectors.adjoints.slot id = t.vectors.adjoints.slot id := by
  rw [adjointSweep] at h
  obtain ⟨-, -, h⟩ := exists_of_bind_eq_ok h
  split at h
  · cases h
    rfl
  · obtain ⟨s₁, h₁, h⟩ := exists_of_bind_eq_ok h
    have hfold : s₁.tape.vectors.adjoints.slot id = t.vectors.adjoints.slot id := by
      refine Eq.trans (slot_of_foldlM Traced.adjointStep_sameRecording ?_ h₁)
        (t.vectors.adjoints.slot_ensure _ id)
      intro st hst s s' hsame hs
      have hst := List.mem_reverse.mp hst
      have hsame := t.widen_sameRecording.trans hsame
      refine Traced.adjointStep_slot (hk.of_sameRecording hsame) (ht.log st (mem_of_mem_range hst))
        ?_ hs
      rw [adjointReach_eq hsame]
      exact hid.imp_right fun hid => hid st hst
    split at h
    · cases h
      exact hfold
    · cases h
      exact hfold

omit hk ht

theorem gradient_eq_of_slot {u : Tape F} (hz : t.gradient passive = 0)
    (hpassive : u.vectors.adjoints.slot passive = t.vectors.adjoints.slot passive)
    (hslot : u.vectors.adjoints.slot id = t.vectors.adjoints.slot id) :
    u.gradient id = t.gradient id := by
  have hz : t.vectors.adjoints.slot passive = 0 := hz
  change u.vectors.adjoints.get id = t.vectors.adjoints.get id
  rw [Slots.get_eq_slot hz, Slots.get_eq_slot (hpassive.trans hz), hslot]

theorem tangentSweep_of_eq
    (hspan : start.statements ≤ stop.statements ∧ stop.statements ≤ t.statementCount)
    (heq : start.statements = stop.statements) (kernels : Kernels F) :
    t.tangentSweep kernels start stop = .ok ⟨t, []⟩ := by
  have hcheck : t.checkSpan start stop = .ok () := if_pos hspan
  rw [tangentSweep, hcheck]
  exact if_pos heq

/-- A sweep changes no derivatives but those that the statements and records of its range name, and
an empty one leaves the tape as it is. A record names the outputs and the active inputs that it was
recorded with. -/
theorem sweeps_spare_unnamed {policy : Policy} {kind : TapeKind}
    (ht : (Tape.new policy kind).Leads t) (hz : t.gradient passive = 0)
    (hk : t.Abides kernels schemas)
    (hspan : start.statements ≤ stop.statements ∧ stop.statements ≤ t.statementCount) :
    (∀ s, t.tangentSweep kernels start stop = .ok s →
        ∀ id, t.Spares (t.tangentReach schemas) start stop id →
          s.tape.gradient id = t.gradient id) ∧
      (∀ s, t.adjointSweep kernels start stop = .ok s →
        ∀ id, t.Spares (t.adjointReach schemas) start stop id →
          s.tape.gradient id = t.gradient id) ∧
      (start.statements = stop.statements →
        t.tangentSweep kernels start stop = .ok ⟨t, []⟩ ∧
          t.adjointSweep kernels start stop = .ok ⟨t, []⟩) ∧
      ∀ [LawfulCells F] (u : Tape F) (token : Token) (kernel : Kernel F)
        (a : (schemas token).Record), kernels token = some kernel → (schemas token).Fits a →
          ∃ record, u.writeRecord kernels token (schemas token) a = .ok (u.withRecord record) ∧
            record.token = token ∧
            record.targets u.traits (schemas token) = (schemas token).outputIds a ∧
            record.sources u.traits (schemas token) = (schemas token).activeIds a := by
  have hgrounded := ht.grounded (grounded_new policy kind)
  refine ⟨fun s h id hid => ?_, fun s h id hid => ?_, fun heq => ?_, ?_⟩
  · exact gradient_eq_of_slot hz (slot_tangentSweep hk hgrounded (.inl rfl) h)
      (slot_tangentSweep hk hgrounded hid h)
  · exact gradient_eq_of_slot hz (slot_adjointSweep hk hgrounded (.inl rfl) h)
      (slot_adjointSweep hk hgrounded hid h)
  · exact ⟨tangentSweep_of_eq hspan heq kernels, adjointSweep_of_eq hspan heq kernels⟩
  · intro _ u token kernel a hkernel hfit
    exact ⟨_, writeRecord_eq u hkernel _ a hfit, rfl, Record.names_of_fits hfit rfl rfl⟩

def sumsOnly : Catalogue Int := ⟨fun _ => some SquareSum.kernel, fun _ => ⟨0⟩⟩

theorem sweeps_spare_unnamed_inactive :
    ∃ (r : Recording Int) (s s' : Traced Int),
      (Recording.fresh .reuse .primalValues ![3, 5, 0]).run sumsOnly
        [.input 0, .input 1, .sumSquares [⟨[0], 2, none, none⟩, ⟨[1], 3, some false, none⟩] [2]] =
          .ok r ∧
      (r.tape.withAdjoints ⟨0, [1, 7, 4]⟩).tangentSweep sumsOnly.kernels .zero ⟨3, 1, 3⟩ = .ok s ∧
      (r.tape.withAdjoints ⟨0, [1, 7, 4]⟩).adjointSweep sumsOnly.kernels .zero ⟨3, 1, 3⟩ = .ok s' ∧
      (r.tape.range .zero ⟨3, 1, 3⟩).map
        (r.tape.adjointReach fun _ => SquareSum.schema) = [[], [], [3, 1]] ∧
      s.tape.gradient 1 = 1 ∧ s.tape.gradient 2 = 7 ∧ s'.tape.gradient 2 = 7 := by
  have hrun : ∃ r, (Recording.fresh .reuse .primalValues ![3, 5, 0]).run sumsOnly
      [.input 0, .input 1, .sumSquares [⟨[0], 2, none, none⟩, ⟨[1], 3, some false, none⟩] [2]] =
        .ok r := ⟨_, rfl⟩
  obtain ⟨r, hr⟩ := hrun
  have hleads : (new .reuse .primalValues).Leads (r.tape.withAdjoints ⟨0, [1, 7, 4]⟩) :=
    (Recording.run_records hr).leads.trans (Leads.act (.seed r.tape _))
  have hreach : (r.tape.range .zero ⟨3, 1, 3⟩).map
      (r.tape.adjointReach fun _ => SquareSum.schema) = [[], [], [3, 1]] := by
    cases hr
    rfl
  have hspan : Position.zero.statements ≤ (⟨3, 1, 3⟩ : Position).statements ∧
      (⟨3, 1, 3⟩ : Position).statements ≤
        (r.tape.withAdjoints ⟨0, [1, 7, 4]⟩).statementCount := by
    cases hr
    decide
  have hs : ∃ s, (r.tape.withAdjoints ⟨0, [1, 7, 4]⟩).tangentSweep sumsOnly.kernels .zero
      ⟨3, 1, 3⟩ = .ok s := by
    cases hr
    exact ⟨_, rfl⟩
  have hs' : ∃ s, (r.tape.withAdjoints ⟨0, [1, 7, 4]⟩).adjointSweep sumsOnly.kernels .zero
      ⟨3, 1, 3⟩ = .ok s := by
    cases hr
    exact ⟨_, rfl⟩
  have hspares : (r.tape.withAdjoints ⟨0, [1, 7, 4]⟩).Spares
      ((r.tape.withAdjoints ⟨0, [1, 7, 4]⟩).adjointReach fun _ => SquareSum.schema) .zero
        ⟨3, 1, 3⟩ 2 := by
    cases hr
    decide
  have hspares' (id : Identifier) (hid : id = 1 ∨ id = 2) :
      (r.tape.withAdjoints ⟨0, [1, 7, 4]⟩).Spares
        ((r.tape.withAdjoints ⟨0, [1, 7, 4]⟩).tangentReach fun _ => SquareSum.schema) .zero
          ⟨3, 1, 3⟩ id := by
    cases hr
    rcases hid with rfl | rfl <;> decide
  obtain ⟨s, hs⟩ := hs
  obtain ⟨s', hs'⟩ := hs'
  have habides : (r.tape.withAdjoints ⟨0, [1, 7, 4]⟩).Abides sumsOnly.kernels
      fun _ => SquareSum.schema := fun _ _ _ h => Option.some.inj h ▸ SquareSum.kernel_abides
  obtain ⟨htangent, hadjoint, -⟩ := sweeps_spare_unnamed hleads rfl habides hspan
  exact ⟨r, s, s', hr, hs, hs', hreach, htangent s hs 1 (hspares' 1 (.inl rfl)),
    htangent s hs 2 (hspares' 2 (.inr rfl)), hadjoint s' hs' 2 hspares⟩

end Tape

end Autodiff
