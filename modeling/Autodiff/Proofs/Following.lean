import Autodiff.Proofs.Placement

namespace Autodiff

open History

variable {F : Type} [Scalar F] {token : Token}

theorem Issuer.settle_passive (m : Issuer) : m.settle passive = m.issue := by
  rw [settle]
  cases m.policy with
  | linear => rfl
  | reuse => exact if_pos rfl

namespace History

variable {traits : Traits} {records : List (Record F)} {log : List (Statement F)} {es : History F}

theorem Logged.mono (h : Logged traits token records log es) (record : Record F) :
    Logged traits token (records ++ [record]) log es := by
  induction h with
  | nil => exact .nil
  | skip _ he ih => exact ih.skip he
  | append _ hst ih => exact ih.append (hst.mono [record])

end History

namespace Tape

structure Follows (token : Token) (t : Tape F) (m : Issuer) (es : History F) : Prop where
  issuer_eq : t.issuer = m
  logged : Logged t.traits token t.records t.log es
  pending_eq : t.pending = []
  lent_eq : t.pool.lent = 0
  adjoints_eq : t.vectors.adjoints = .new
  primals_eq : ∀ p ∈ t.vectors.primals, p.slot = primals es

theorem new_follows (policy : Policy) (kind : TapeKind) :
    (new policy kind : Tape F).Follows token (.new policy) [] := by
  refine ⟨rfl, .nil, rfl, rfl, rfl, fun p hp => ?_⟩
  cases kind with
  | jacobian => cases hp
  | primalValues =>
    cases hp
    funext id
    cases id with
    | zero => rfl
    | succ => rfl

theorem addArguments_eq (t : Tape F) (args : List (Identifier × F)) :
    t.addArguments args = { t with pending := t.pending ++ Ledger.active args } := by
  induction args generalizing t with
  | nil => simp [addArguments, Ledger.active]
  | cons a args ih =>
    rw [addArguments, List.foldl_cons]
    refine (ih _).trans ?_
    by_cases ha : a.1 = passive
    · simp [addArgument, Ledger.active, ha]
    · simp [addArgument, Ledger.active, ha]

theorem release_eq {t : Tape F} {y : Variable F} {m : Issuer}
    (hm : t.issuer.retire y.identifier = .ok m) :
    t.release y = .ok (y.release, { t with issuer := m }) := by
  rw [release, retire, hm]
  rfl

theorem assign_eq {t : Tape F} (lhs : Variable F) (value : F) {args : List (Identifier × F)}
    (h : (args.all fun a => a.1 == passive) = false) :
    t.assign lhs value args = .ok (⟨value, (t.issuer.settle lhs.identifier).1⟩,
      ({ t with issuer := (t.issuer.settle lhs.identifier).2 }.addArguments args).append
        (t.issuer.settle lhs.identifier).1 .elementary value) := by
  rw [assign, h, addArguments_eq, addArguments_eq]
  rfl

theorem output_eq {t : Tape F} {y : Variable F} {m : Issuer} (h : y.identifier ≠ passive)
    (hm : t.issuer.issue.2.retire y.identifier = .ok m) :
    t.output y = .ok (⟨y.value, t.issuer.issue.1⟩,
      ({ t with issuer := m }.addArguments [(y.identifier, 1)]).append
        t.issuer.issue.1 .elementary y.value) := by
  have hclose : (t.addArgument y.identifier 1).closeStatement passive y.value =
      (t.issuer.issue.1, ({ t with issuer := t.issuer.issue.2 }.addArguments
        [(y.identifier, 1)]).append t.issuer.issue.1 .elementary y.value) := by
    change (t.addArguments [(y.identifier, 1)]).closeStatement passive y.value = _
    rw [addArguments_eq, addArguments_eq, closeStatement, ← Issuer.settle_passive]
  rw [output, if_neg h, hclose, addArguments_eq, addArguments_eq]
  change (Tape.retire _ _ >>= fun t => _) = _
  rw [retire]
  change ((t.issuer.issue.2.retire y.identifier >>= fun m => _) >>= fun t => _) = _
  rw [hm]
  rfl

namespace Follows

variable {t : Tape F} {m m' : Issuer} {es : History F} {e : Event F}

theorem withIssuer (h : t.Follows token m es) (hp : m'.policy = m.policy) :
    Follows token { t with issuer := m' } m' es := by
  refine ⟨rfl, ?_, h.pending_eq, h.lent_eq, h.adjoints_eq, h.primals_eq⟩
  have htraits : ({ t with issuer := m' } : Tape F).traits = t.traits := by
    simp [traits, hasPrimals, h.issuer_eq, hp]
  rw [htraits]
  exact h.logged

theorem writePrimal (h : t.Follows token m es) {id : Identifier} {value : F} (hid : id ≠ passive)
    (hw : e.writes = [(id, value)]) :
    ∀ p ∈ t.vectors.primals.map (·.set id value), p.slot = primals (es ++ [e]) := by
  intro p hp
  obtain ⟨p₀, hp₀, rfl⟩ := Option.mem_map.mp hp
  rw [slot_set_eq p₀ value hid, h.primals_eq p₀ hp₀, primals_append, Event.redo, hw]

theorem append (h : t.Follows token m es) {id : Identifier} {kind : StatementKind} {value : F}
    {args : List (Identifier × F)} (hid : id ≠ passive) (hw : e.writes = [(id, value)])
    (hst : ∀ overwrite, (t.hasPrimals = true → overwrite = some ⟨value, primals es id⟩) →
      Statement.Records t.traits token t.records (primals es) ⟨id, kind, args, overwrite⟩ e) :
    Follows token (({ t with pending := args } : Tape F).append id kind value) m (es ++ [e]) := by
  have htraits : (({ t with pending := args } : Tape F).append id kind value).traits =
      t.traits := by
    simp [traits, hasPrimals, Tape.append, Vectors.hasPrimals_setPrimal]
  refine ⟨h.issuer_eq, ?_, rfl, h.lent_eq, ?_, ?_⟩
  · rw [htraits]
    refine h.logged.append (hst _ fun hp => ?_)
    cases hv : t.vectors.primals with
    | none => simp [hasPrimals, Vectors.hasPrimals, hv] at hp
    | some p =>
      rw [← h.primals_eq p hv]
      simp [replaced, hid]
  · rw [← h.adjoints_eq]
    simp [Tape.append, Vectors.setPrimal, hid]
  · simpa [Tape.append, Vectors.setPrimal, hid] using h.writePrimal hid hw

theorem elementary (h : t.Follows token m es) {id : Identifier} (hid : id ≠ passive) (value : F)
    (args : List (Identifier × F)) :
    Follows token ((t.addArguments args).append id .elementary value) m
      (es ++ [.elementary id (Ledger.active args) value]) := by
  rw [addArguments_eq, h.pending_eq, List.nil_append]
  exact h.append hid rfl fun _ ho => .elementary hid ho

theorem input (h : t.Follows token m es) {id : Identifier} (hid : id ≠ passive) (value : F) :
    Follows token (if t.traits.rollsBack then t.append id .input value
      else t.withPrimals (t.vectors.primals.map (·.set id value))) m (es ++ [.input id value]) := by
  split
  · rename_i hb
    have happend : Follows token (({ t with pending := [] } : Tape F).append id .input value) m
        (es ++ [.input id value]) := h.append hid rfl fun _ ho => .input hid hb 
          (ho (Traits.hasPrimals_of_rollsBack hb))
    have hpending : ({ t with pending := [] } : Tape F) = t := by rw [← h.pending_eq]
    rwa [hpending] at happend
  · rename_i hb
    have htraits : (t.withPrimals (t.vectors.primals.map (·.set id value))).traits = t.traits := by
      simp [traits, hasPrimals, withPrimals, Vectors.hasPrimals]
    refine ⟨h.issuer_eq, ?_, h.pending_eq, h.lent_eq, h.adjoints_eq, h.writePrimal hid rfl⟩
    rw [htraits]
    exact h.logged.skip (by simpa [Event.isLogged] using hb)

end Follows

end Tape

end Autodiff
