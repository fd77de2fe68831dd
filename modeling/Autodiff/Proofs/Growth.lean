import Autodiff.Proofs.Reachable
import Autodiff.Proofs.Runs

namespace Autodiff

variable {F : Type} [Scalar F]

structure Tape.Grows (token : Token) (t t' : Tape F) : Prop where
  log : t.log <+: t'.log
  records : ∃ added, t'.records = t.records ++ added ∧ ∀ record ∈ added,
    ∃ (c : Product.Call F) (olds : List F), record.Stores t.traits token c olds
  hasPrimals_eq : t'.hasPrimals = t.hasPrimals
  policy_eq : t'.issuer.policy = t.issuer.policy

namespace Tape.Grows

variable {token : Token} {t t' t'' : Tape F}

theorem traits_eq (h : Grows token t t') : t'.traits = t.traits := by
  rw [traits, traits, h.hasPrimals_eq, h.policy_eq]

theorem trans (h : Grows token t t') (h' : Grows token t' t'') : Grows token t t'' := by
  obtain ⟨added, hadded, hstores⟩ := h.records
  obtain ⟨added', hadded', hstores'⟩ := h'.records
  refine ⟨h.log.trans h'.log, ⟨added ++ added', ?_, ?_⟩, h'.hasPrimals_eq.trans h.hasPrimals_eq,
    h'.policy_eq.trans h.policy_eq⟩
  · rw [hadded', hadded, List.append_assoc]
  · intro record hrecord
    rcases List.mem_append.mp hrecord with hrecord | hrecord
    · exact hstores record hrecord
    · rw [← h.traits_eq]
      exact hstores' record hrecord

theorem of_records_eq (hlog : t.log <+: t'.log) (hrecords : t'.records = t.records)
    (hp : t'.hasPrimals = t.hasPrimals) (hpolicy : t'.issuer.policy = t.issuer.policy) :
    Grows token t t' :=
  ⟨hlog, ⟨[], by rw [hrecords, List.append_nil], nofun⟩, hp, hpolicy⟩

theorem of_sameLog (h : t.SameLog t') : Grows token t t' :=
  of_records_eq (by rw [h.log_eq]) h.records_eq h.hasPrimals_eq h.policy_eq

theorem refl (t : Tape F) : Grows token t t := of_sameLog (.refl t)

theorem withIssuer {m : Issuer} (h : m.policy = t.issuer.policy) :
    Grows token t { t with issuer := m } :=
  of_records_eq List.prefix_rfl rfl rfl h

theorem append (t : Tape F) (id : Identifier) (kind : StatementKind) (value : F) :
    Grows token t (t.append id kind value) :=
  of_records_eq (List.prefix_append ..) rfl (Vectors.hasPrimals_setPrimal ..) rfl

theorem addArguments (t : Tape F) (args : List (Identifier × F)) :
    Grows token t (t.addArguments args) := by
  rw [addArguments_eq]
  exact of_records_eq List.prefix_rfl rfl rfl rfl

theorem closeStatement (t : Tape F) (lhs : Identifier) (value : F) :
    Grows token t (t.closeStatement lhs value).2 := by
  have hsettled : Grows token t { t with issuer := (t.issuer.settle lhs).2 } :=
    withIssuer (Issuer.policy_settle ..)
  exact hsettled.trans (append ..)

theorem retire {id : Identifier} (h : t.retire id = .ok t') : Grows token t t' := by
  obtain ⟨m, hm, h⟩ := exists_of_bind_eq_ok h
  cases h
  exact withIssuer (Issuer.policy_retire hm)

variable {x y : Variable F}

theorem assign {value : F} {args : List (Identifier × F)} (h : t.assign x value args = .ok (y, t')) :
    Grows token t t' := by
  rw [Tape.assign] at h
  split at h
  · exact of_sameLog (release_sameLog h)
  · cases h
    exact (addArguments t args).trans (closeStatement ..)

theorem input (h : t.input x = .ok (y, t')) : Grows token t t' := by
  obtain ⟨⟨id, m⟩, hm, h⟩ := exists_of_bind_eq_ok h
  cases h
  apply (withIssuer (Issuer.policy_exchange hm)).trans
  dsimp only
  split
  · exact append ..
  · exact of_records_eq List.prefix_rfl rfl (Vectors.hasPrimals_map ..) rfl

theorem output (h : t.output x = .ok (y, t')) : Grows token t t' := by
  rw [Tape.output] at h
  split at h
  · cases h
    exact refl t
  · obtain ⟨t₁, h₁, h⟩ := exists_of_bind_eq_ok h
    cases h
    exact ((addArguments t [(x.identifier, 1)]).trans (closeStatement ..)).trans (retire h₁)

theorem multiply [LawfulCells F] {kernels : Kernels F} {s : MatrixOrder} {n k m : Nat}
    {a b r ys : List (Variable F)}
    (h : Product.multiply t kernels token s n k m a b r = .ok (ys, t')) : Grows token t t' := by
  rcases Product.of_multiply_eq_ok h with
    ⟨-, hsame⟩ | ⟨-, t₁, record, pool, pool', olds, hsame, hstores, -, rfl⟩
  · exact of_sameLog hsame
  · have hstaged : Grows token t { t with pool := pool } :=
      of_records_eq List.prefix_rfl rfl rfl rfl
    have hrecord : Grows token t₁ { t₁.withRecord record with pool := pool' } := by
      refine ⟨List.prefix_append .., ⟨[record], rfl, ?_⟩, Vectors.hasPrimals_setPrimal .., rfl⟩
      intro stored hstored
      obtain rfl := List.mem_singleton.mp hstored
      exact ⟨_, olds, hstores⟩
    exact (hstaged.trans (of_sameLog hsame)).trans hrecord

end Tape.Grows

namespace Recording

variable {n : Nat} {c : Catalogue F} {r r' : Recording F}

theorem setAll_tape (r : Recording F) (vs : List Nat) (xs : List (Variable F)) :
    (r.setAll vs xs).tape = r.tape := by
  rw [setAll]
  induction vs.zip xs generalizing r with
  | nil => rfl
  | cons vx vxs ih => exact ih (r.set vx.1 vx.2)

theorem apply_grows [LawfulCells F] {i : Instruction F n} {note : Note F}
    (h : r.apply c i.operation = .ok (note, r')) :
    Tape.Grows (c.token .product) r.tape r'.tape := by
  cases i with
  | input v =>
    obtain ⟨⟨y, t⟩, hy, h⟩ := exists_of_bind_eq_ok h
    cases h
    exact .input hy
  | multiply p =>
    obtain ⟨⟨ys, t⟩, hy, h⟩ := exists_of_bind_eq_ok h
    cases h
    rw [setAll_tape]
    exact .multiply hy
  | line l =>
    cases l with
    | constant v value =>
      cases h
      exact .refl _
    | assign v value args =>
      obtain ⟨⟨y, t⟩, hy, h⟩ := exists_of_bind_eq_ok h
      cases h
      exact .assign hy
    | output v =>
      obtain ⟨⟨y, t⟩, hy, h⟩ := exists_of_bind_eq_ok h
      cases h
      exact .output hy
    | release v =>
      obtain ⟨⟨y, t⟩, hy, h⟩ := exists_of_bind_eq_ok h
      cases h
      exact .of_sameLog (Tape.release_sameLog hy)

theorem run_grows [LawfulCells F] {program : List (Instruction F n)}
    (h : r.run c (program.map Instruction.operation) = .ok r') :
    Tape.Grows (c.token .product) r.tape r'.tape := by
  induction program generalizing r with
  | nil =>
    cases h
    exact .refl _
  | cons i program ih =>
    obtain ⟨⟨note, r₁⟩, h₁, h⟩ := exists_of_bind_eq_ok h
    exact (apply_grows h₁).trans (ih h)

end Recording

end Autodiff
