import Autodiff.Proofs.Argument
import Autodiff.Tape.Rewind

namespace Autodiff

variable {F : Type} [Scalar F]

theorem Action.perform_hasPrimals {a : Action F} {r : Replay F} {x : a.Result × Replay F}
    (h : a.perform r = .ok x) : x.2.vectors.hasPrimals = r.vectors.hasPrimals := by
  cases a with
  | takeGradient id =>
    simp only [perform, Vectors.takeGradient_eq] at h
    cases h
    rfl
  | setGradient id y =>
    cases h
    simp only [Vectors.setGradient_eq, Replay.withVectors]
    rfl
  | addGradient id y =>
    cases h
    simp only [Vectors.addGradient_eq, Replay.withVectors]
    rfl
  | setPrimal id y =>
    cases h
    exact Vectors.hasPrimals_setPrimal ..
  | read side ty =>
    obtain ⟨_, -, h⟩ := exists_of_bind_eq_ok h
    cases h
    cases side <;> rfl
  | readMany side ty n =>
    obtain ⟨_, -, h⟩ := exists_of_bind_eq_ok h
    cases h
    cases side <;> rfl
  | finish side =>
    obtain ⟨_, -, h⟩ := exists_of_bind_eq_ok h
    cases h
    rfl
  | returnIdentifiers b =>
    obtain ⟨_, -, h⟩ := exists_of_bind_eq_ok h
    cases h
    rfl
  | returnValues b =>
    obtain ⟨_, -, h⟩ := exists_of_bind_eq_ok h
    cases h
    rfl
  | _ =>
    cases h
    rfl

theorem Program.run_hasPrimals {α : Type} {p : Program F α} {r : Replay F} {x : α × Replay F}
    (h : p.run r = .ok x) : x.2.vectors.hasPrimals = r.vectors.hasPrimals := by
  induction p generalizing r with
  | pure y =>
    cases h
    rfl
  | fail fault => cases h
  | perform a next ih =>
    rw [run] at h
    cases ha : a.perform r with
    | error fault =>
      rw [ha] at h
      cases h
    | ok s =>
      rw [ha] at h
      exact (ih s.1 h).trans (Action.perform_hasPrimals ha)

structure Tape.SameRecording (t t' : Tape F) : Prop where
  issuer_eq : t'.issuer = t.issuer
  log_eq : t'.log = t.log
  pending_eq : t'.pending = t.pending
  records_eq : t'.records = t.records
  hasPrimals_eq : t'.hasPrimals = t.hasPrimals

namespace Tape.SameRecording

variable {t t' t'' : Tape F}

theorem refl (t : Tape F) : t.SameRecording t := ⟨rfl, rfl, rfl, rfl, rfl⟩

theorem trans (h : t.SameRecording t') (h' : t'.SameRecording t'') : t.SameRecording t'' :=
  ⟨h'.issuer_eq.trans h.issuer_eq, h'.log_eq.trans h.log_eq, h'.pending_eq.trans h.pending_eq,
    h'.records_eq.trans h.records_eq, h'.hasPrimals_eq.trans h.hasPrimals_eq⟩

theorem traits_eq (h : t.SameRecording t') : t'.traits = t.traits := by
  rw [traits, traits, h.hasPrimals_eq, h.issuer_eq]

end Tape.SameRecording

namespace Traced

variable {kernels : Kernels F} {s s' : Traced F}

theorem attempt_eq_ok {α : Type} {e : Except Fault α} {x : α} (h : s.attempt e = .ok x) :
    e = .ok x := by
  cases e with
  | error => cases h
  | ok => cases h; rfl

theorem replay_sameRecording {callback : Kernel F → Program F Unit} {k : Nat}
    (h : s.replay kernels callback k = .ok s') : s.tape.SameRecording s'.tape := by
  unfold replay at h
  split at h
  · cases h
  · obtain ⟨kernel, -, h⟩ := exists_of_bind_eq_ok h
    obtain ⟨⟨_, r⟩, hrun, h⟩ := exists_of_bind_eq_ok h
    cases h
    exact ⟨rfl, rfl, rfl, rfl, Program.run_hasPrimals hrun⟩

theorem undoPrimal_sameRecording (st : Statement F) (t : Tape F) :
    t.SameRecording (undoPrimal st t) := by
  unfold undoPrimal
  split
  · exact ⟨rfl, rfl, rfl, rfl, Vectors.hasPrimals_map ..⟩
  · exact .refl t

theorem tangentStep_sameRecording {st : Statement F} (h : tangentStep kernels s st = .ok s') :
    s.tape.SameRecording s'.tape := by
  unfold tangentStep at h
  split at h
  · cases h
    exact ⟨rfl, rfl, rfl, rfl, Vectors.hasPrimals_map ..⟩
  · cases h
    exact ⟨rfl, rfl, rfl, rfl, Vectors.hasPrimals_map ..⟩
  · exact replay_sameRecording h

theorem adjointStep_sameRecording {st : Statement F} (h : adjointStep kernels s st = .ok s') :
    s.tape.SameRecording s'.tape := by
  unfold adjointStep at h
  split at h
  · cases h
    exact (undoPrimal_sameRecording st s.tape).trans ⟨rfl, rfl, rfl, rfl, rfl⟩
  · cases h
    exact undoPrimal_sameRecording st s.tape
  · exact replay_sameRecording h

theorem foldlM_sameRecording {α : Type} {step : Traced F → α → Except (Halt F) (Traced F)}
    (hstep : ∀ {s s' st}, step s st = .ok s' → s.tape.SameRecording s'.tape)
    {log : List α} (h : log.foldlM step s = .ok s') :
    s.tape.SameRecording s'.tape :=
  foldlM_invariant (P := fun s₁ : Traced F => s.tape.SameRecording s₁.tape)
    (fun _ _ _ _ h hs => h.trans (hstep hs)) (.refl _) h

end Traced

namespace Tape

variable {kernels : Kernels F} {t : Tape F} {start stop : Position} {s : Traced F}

theorem deleteRecord_sameRecording {s s' : Traced F} {record : Record F}
    (h : deleteRecord kernels s record = .ok s') : s.tape.SameRecording s'.tape := by
  obtain ⟨kernel, -, h⟩ := exists_of_bind_eq_ok h
  obtain ⟨⟨_, r⟩, -, h⟩ := exists_of_bind_eq_ok h
  cases h
  exact ⟨rfl, rfl, rfl, rfl, rfl⟩

theorem widen_sameRecording (t : Tape F) : t.SameRecording t.widen :=
  ⟨rfl, rfl, rfl, rfl, Vectors.hasPrimals_map ..⟩

theorem tangentSweep_sameRecording (h : t.tangentSweep kernels start stop = .ok s) :
    t.SameRecording s.tape := by
  unfold tangentSweep at h
  obtain ⟨_, -, h⟩ := exists_of_bind_eq_ok h
  split at h
  · cases h
    exact .refl t
  · exact t.widen_sameRecording.trans
      (Traced.foldlM_sameRecording Traced.tangentStep_sameRecording h)

theorem adjointSweep_sameRecording (h : t.adjointSweep kernels start stop = .ok s) :
    t.SameRecording s.tape := by
  unfold adjointSweep at h
  obtain ⟨_, -, h⟩ := exists_of_bind_eq_ok h
  split at h
  · cases h
    exact .refl t
  · obtain ⟨s₁, h₁, h⟩ := exists_of_bind_eq_ok h
    have hfold := t.widen_sameRecording.trans
      (Traced.foldlM_sameRecording Traced.adjointStep_sameRecording h₁)
    split at h
    · cases h
      exact ⟨hfold.issuer_eq, hfold.log_eq, hfold.pending_eq, hfold.records_eq,
        t.widen_sameRecording.hasPrimals_eq⟩
    · cases h
      exact hfold

structure KeepsUpTo (t t' : Tape F) (p : Position) : Prop where
  issuer_rewind : t.issuer.rewind p.largest = .ok t'.issuer
  log_eq : t'.log = t.log.take p.statements
  pending_eq : t'.pending = []
  records_eq : t'.records = t.records.take p.externals
  hasPrimals_eq : t'.hasPrimals = t.hasPrimals

theorem backTo_keepsUpTo {p : Position} (h : t.backTo kernels p = .ok s) :
    t.KeepsUpTo s.tape p := by
  unfold backTo at h
  split at h
  · obtain ⟨s₁, h₁, h⟩ := exists_of_bind_eq_ok h
    obtain ⟨m, hm, h⟩ := exists_of_bind_eq_ok h
    obtain ⟨s₂, h₂, h₁⟩ := exists_of_bind_eq_ok h₁
    cases h
    cases h₁
    have hsame := Traced.foldlM_sameRecording deleteRecord_sameRecording h₂
    exact ⟨Traced.attempt_eq_ok hm, congrArg (List.take _) hsame.log_eq, rfl,
      congrArg (List.take _) hsame.records_eq, hsame.hasPrimals_eq⟩
  · cases h

end Tape

end Autodiff
