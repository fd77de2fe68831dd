import Autodiff.Proofs.Leads

namespace Autodiff

variable {F : Type} [Scalar F]

def Action.touch (v : Vectors F) : Action F → Vectors F
  | setGradient id x => v.setGradient id x
  | addGradient id x => v.addGradient id x
  | takeGradient id => (v.takeGradient id).2
  | setPrimal id x => v.setPrimal id x
  | _ => v

theorem Action.vectors_perform {a : Action F} {r : Replay F} {x : a.Result × Replay F}
    (h : a.perform r = .ok x) : x.2.vectors = a.touch r.vectors := by
  cases a with
  | read side ty =>
    obtain ⟨_, -, h⟩ := exists_of_bind_eq_ok h
    cases h
    cases side <;> rfl
  | readMany side ty n =>
    obtain ⟨_, -, h⟩ := exists_of_bind_eq_ok h
    cases h
    cases side <;> rfl
  | finish side =>
    obtain ⟨_, -, h⟩ := exists_of_bind_eq_ok h
    cases h
    rfl
  | returnIdentifiers b =>
    obtain ⟨_, -, h⟩ := exists_of_bind_eq_ok h
    cases h
    rfl
  | returnValues b =>
    obtain ⟨_, -, h⟩ := exists_of_bind_eq_ok h
    cases h
    rfl
  | _ =>
    cases h
    rfl

theorem Program.vectors_run {α : Type} {P : Vectors F → Prop} {p : Program F α} {r : Replay F}
    {x : α × Replay F} (htouch : ∀ (a : Action F) (v : Vectors F), P v → P (a.touch v))
    (h : p.run r = .ok x) (hr : P r.vectors) : P x.2.vectors := by
  induction p generalizing r with
  | pure y =>
    cases h
    exact hr
  | fail fault => cases h
  | perform a next ih =>
    rw [run] at h
    cases ha : a.perform r with
    | error fault =>
      rw [ha] at h
      cases h
    | ok s =>
      rw [ha] at h
      apply ih s.1 h
      rw [Action.vectors_perform ha]
      exact htouch a r.vectors hr

theorem Slots.slot_resize_passive (v : Slots F) (n : Nat) :
    (v.resize n).slot passive = v.slot passive :=
  (v.slot_resize n passive).trans (if_pos (Nat.le_max_right n 1))

namespace Vectors

structure SamePassive (v v' : Vectors F) : Prop where
  adjoint_eq : v'.adjoints.slot passive = v.adjoints.slot passive
  primal_eq : v'.primals.map (·.slot passive) = v.primals.map (·.slot passive)

namespace SamePassive

variable {v v' v'' : Vectors F}

theorem refl (v : Vectors F) : v.SamePassive v := ⟨rfl, rfl⟩

theorem trans (h : v.SamePassive v') (h' : v'.SamePassive v'') : v.SamePassive v'' :=
  ⟨h'.adjoint_eq.trans h.adjoint_eq, h'.primal_eq.trans h.primal_eq⟩

theorem map (v : Vectors F) {f g : Slots F → Slots F}
    (hf : ∀ a : Slots F, (f a).slot passive = a.slot passive)
    (hg : ∀ p : Slots F, (g p).slot passive = p.slot passive) :
    v.SamePassive ⟨f v.adjoints, v.primals.map g⟩ := by
  refine ⟨hf _, ?_⟩
  rw [Option.map_map]
  exact congrArg (v.primals.map ·) (funext hg)

theorem ensure (v : Vectors F) (n : Identifier) : v.SamePassive (v.ensure n) :=
  map v (fun a => a.slot_ensure n passive) (fun p => p.slot_ensure n passive)

theorem slot_set_passive (a : Slots F) {id : Identifier} (x : F) (hid : id ≠ passive) :
    (a.set id x).slot passive = a.slot passive := by
  rw [Slots.slot_set, if_neg hid]

theorem setPrimal (v : Vectors F) (id : Identifier) (x : F) : v.SamePassive (v.setPrimal id x) := by
  rw [Vectors.setPrimal]
  split
  case isTrue => exact refl v
  case isFalse hid => exact map v (fun _ => rfl) (fun p => slot_set_passive p x hid)

theorem touch (a : Action F) (v : Vectors F) : v.SamePassive (a.touch v) := by
  cases a with
  | setGradient id x =>
    rw [Action.touch, setGradient_eq]
    refine ⟨?_, rfl⟩
    rw [Slots.slot_scatter, overwrite_passive]
  | addGradient id x =>
    rw [Action.touch, addGradient_eq]
    exact ⟨Slots.slot_accumulate_passive .., rfl⟩
  | takeGradient id =>
    rw [Action.touch, takeGradient_eq]
    refine ⟨?_, rfl⟩
    rw [Slots.slot_scatter, overwrite_passive]
  | setPrimal id x => exact setPrimal v id x
  | _ => exact refl v

theorem run {α : Type} {p : Program F α} {r : Replay F} {x : α × Replay F}
    (h : p.run r = .ok x) : r.vectors.SamePassive x.2.vectors :=
  Program.vectors_run (fun a _ hv => hv.trans (touch a _)) h (refl _)

end SamePassive

end Vectors

structure Statement.Grounded (st : Statement F) : Prop where
  output_ne : (∀ k, st.kind ≠ .external k) → st.output ≠ passive
  arguments_ne : ∀ arg ∈ st.arguments, arg.1 ≠ passive

namespace Statement.Grounded

variable {st : Statement F}

theorem slot_distribute (h : st.Grounded) (adjoint : F) (v : Slots F) :
    (st.distribute adjoint v).slot passive = v.slot passive := by
  have hfold (args : List (Identifier × F)) (hargs : ∀ arg ∈ args, arg.1 ≠ passive)
      (v : Slots F) : (args.foldl (fun v arg => v.modify arg.1 (· + arg.2 * adjoint)) v).slot
        passive = v.slot passive := by
    induction args generalizing v with
    | nil => rfl
    | cons arg args ih =>
      rw [List.foldl_cons, ih fun a ha => hargs a (List.mem_cons_of_mem _ ha), Slots.modify,
        Slots.slot_set, if_neg (hargs arg List.mem_cons_self)]
  exact hfold st.arguments h.arguments_ne v

theorem slot_propagate (h : st.Grounded) (hout : st.output ≠ passive) (v : Slots F) :
    (st.propagate v).slot passive = v.slot passive := by
  rw [propagate]
  split
  · rfl
  · rw [h.slot_distribute, Slots.slot_set, if_neg hout]

theorem slot_redo (hout : st.output ≠ passive) (p : Slots F) :
    (st.redo p).slot passive = p.slot passive := by
  rw [redo]
  split
  · rw [Slots.slot_set, if_neg hout]
  · rfl

theorem slot_undo (hout : st.output ≠ passive) (p : Slots F) :
    (st.undo p).slot passive = p.slot passive := by
  rw [undo]
  split
  · rw [Slots.slot_set, if_neg hout]
  · rfl

end Statement.Grounded

namespace Traced

variable {kernels : Kernels F} {s s' : Traced F} {st : Statement F}

theorem replay_samePassive {callback : Kernel F → Program F Unit} {k : Nat}
    (h : s.replay kernels callback k = .ok s') :
    s.tape.vectors.SamePassive s'.tape.vectors := by
  rw [replay] at h
  split at h
  · cases h
  · obtain ⟨kernel, -, h⟩ := exists_of_bind_eq_ok h
    obtain ⟨⟨_, r⟩, hrun, h⟩ := exists_of_bind_eq_ok h
    cases h
    exact .run hrun

theorem tangentStep_samePassive (hst : st.Grounded) (h : tangentStep kernels s st = .ok s') :
    s.tape.vectors.SamePassive s'.tape.vectors := by
  rw [tangentStep] at h
  split at h
  case h_1 hkind =>
    cases h
    have hout := hst.output_ne (by simp [hkind])
    exact .map _ (f := fun a => a.set st.output (st.tangent s.tape.vectors.adjoints))
      (fun a => by rw [Slots.slot_set, if_neg hout]) (Statement.Grounded.slot_redo hout)
  case h_2 hkind =>
    cases h
    have hout := hst.output_ne (by simp [hkind])
    exact .map _ (f := id) (fun _ => rfl) (Statement.Grounded.slot_redo hout)
  case h_3 => exact replay_samePassive h

theorem undoPrimal_samePassive (hout : st.output ≠ passive) (t : Tape F) :
    t.vectors.SamePassive (undoPrimal st t).vectors := by
  rw [undoPrimal]
  split
  · exact .map _ (f := id) (fun _ => rfl) (Statement.Grounded.slot_undo hout)
  · exact .refl _

theorem adjointStep_samePassive (hst : st.Grounded) (h : adjointStep kernels s st = .ok s') :
    s.tape.vectors.SamePassive s'.tape.vectors := by
  rw [adjointStep] at h
  split at h
  case h_1 hkind =>
    cases h
    have hout := hst.output_ne (by simp [hkind])
    exact (undoPrimal_samePassive hout s.tape).trans ⟨hst.slot_propagate hout _, rfl⟩
  case h_2 hkind =>
    cases h
    exact undoPrimal_samePassive (hst.output_ne (by simp [hkind])) s.tape
  case h_3 => exact replay_samePassive h

theorem foldlM_samePassive {step : Traced F → Statement F → Except (Halt F) (Traced F)}
    (hstep : ∀ {s s' st}, st.Grounded → step s st = .ok s' →
      s.tape.vectors.SamePassive s'.tape.vectors)
    {log : List (Statement F)} (hlog : ∀ st ∈ log, st.Grounded) (h : log.foldlM step s = .ok s') :
    s.tape.vectors.SamePassive s'.tape.vectors :=
  foldlM_invariant (P := fun s₁ : Traced F => s.tape.vectors.SamePassive s₁.tape.vectors)
    (fun st hst _ _ h hs => h.trans (hstep (hlog st hst) hs)) (.refl _) h

end Traced

namespace Tape

variable {kernels : Kernels F} {t t' : Tape F} {start stop : Position} {s : Traced F}

theorem mem_of_mem_range {st : Statement F} (h : st ∈ t.range start stop) : st ∈ t.log :=
  List.mem_of_mem_take (List.mem_of_mem_drop h)

theorem tangentSweep_samePassive (hlog : ∀ st ∈ t.log, st.Grounded)
    (h : t.tangentSweep kernels start stop = .ok s) : t.vectors.SamePassive s.tape.vectors := by
  rw [tangentSweep] at h
  obtain ⟨-, -, h⟩ := exists_of_bind_eq_ok h
  split at h
  · cases h
    exact .refl _
  · have hwiden : t.vectors.SamePassive t.widen.vectors := .ensure ..
    exact hwiden.trans (Traced.foldlM_samePassive Traced.tangentStep_samePassive
      (fun st hst => hlog st (mem_of_mem_range hst)) h)

theorem adjointSweep_samePassive (hlog : ∀ st ∈ t.log, st.Grounded)
    (h : t.adjointSweep kernels start stop = .ok s) : t.vectors.SamePassive s.tape.vectors := by
  rw [adjointSweep] at h
  obtain ⟨-, -, h⟩ := exists_of_bind_eq_ok h
  split at h
  · cases h
    exact .refl _
  · have hwiden : t.vectors.SamePassive t.widen.vectors := .ensure ..
    obtain ⟨s₁, h₁, h⟩ := exists_of_bind_eq_ok h
    have hfold := hwiden.trans (Traced.foldlM_samePassive Traced.adjointStep_samePassive
      (fun st hst => hlog st (mem_of_mem_range (List.mem_reverse.mp hst))) h₁)
    split at h
    · cases h
      exact ⟨hfold.adjoint_eq, hwiden.primal_eq⟩
    · cases h
      exact hfold

/-- Passive variables have no part in the recording, and their primal is zero. -/
structure Grounded (t : Tape F) : Prop where
  primal_eq : ∀ p ∈ t.vectors.primals, p.slot passive = 0
  unused_ne : passive ∉ t.issuer.unused
  pending_ne : ∀ arg ∈ t.pending, arg.1 ≠ passive
  log : ∀ st ∈ t.log, st.Grounded

namespace Grounded

theorem samePassive (h : t.Grounded) (hs : t.SameRecording t')
    (hv : t.vectors.SamePassive t'.vectors) : t'.Grounded := by
  refine ⟨?_, hs.issuer_eq ▸ h.unused_ne, hs.pending_eq ▸ h.pending_ne, hs.log_eq ▸ h.log⟩
  intro p hp
  have hmap := hv.primal_eq
  rw [Option.mem_def.mp hp, Option.map_some] at hmap
  obtain ⟨p₀, hp₀, heq⟩ := Option.map_eq_some_iff.mp hmap.symm
  rw [← heq]
  exact h.primal_eq p₀ hp₀

theorem mapPrimals (h : t.Grounded) {f : Slots F → Slots F}
    (hf : ∀ p : Slots F, (f p).slot passive = p.slot passive) :
    (t.withPrimals (t.vectors.primals.map f)).Grounded :=
  h.samePassive ⟨rfl, rfl, rfl, rfl, Vectors.hasPrimals_map ..⟩
    (.map _ (f := id) (fun _ => rfl) hf)

theorem withIssuer (h : t.Grounded) {m : Issuer} (hm : passive ∉ m.unused) :
    ({ t with issuer := m } : Tape F).Grounded := ⟨h.primal_eq, hm, h.pending_ne, h.log⟩

theorem retire (h : t.Grounded) {id : Identifier} (hr : t.retire id = .ok t') : t'.Grounded := by
  obtain ⟨m, hm, hr⟩ := exists_of_bind_eq_ok hr
  cases hr
  exact h.withIssuer (Issuer.ne_of_retire h.unused_ne hm)

theorem addArgument (h : t.Grounded) (id : Identifier) (weight : F) :
    (t.addArgument id weight).Grounded := by
  rw [Tape.addArgument]
  split
  case isTrue => exact h
  case isFalse hid =>
    refine ⟨h.primal_eq, h.unused_ne, fun arg harg => ?_, h.log⟩
    rcases List.mem_append.mp harg with harg | harg
    · exact h.pending_ne arg harg
    · rw [List.mem_singleton.mp harg]
      exact hid

theorem addArguments (h : t.Grounded) (args : List (Identifier × F)) :
    (t.addArguments args).Grounded := by
  induction args generalizing t with
  | nil => exact h
  | cons arg args ih => exact ih (h.addArgument arg.1 arg.2)

theorem append (h : t.Grounded) {id : Identifier} {kind : StatementKind} (value : F)
    (hid : (∀ k, kind ≠ .external k) → id ≠ passive) : (t.append id kind value).Grounded := by
  have hprimals : ({ t with vectors := t.vectors.setPrimal id value } : Tape F).Grounded :=
    h.samePassive ⟨rfl, rfl, rfl, rfl, Vectors.hasPrimals_setPrimal ..⟩ (.setPrimal ..)
  refine ⟨hprimals.primal_eq, h.unused_ne, nofun, fun st hst => ?_⟩
  rcases List.mem_append.mp hst with hst | hst
  · exact h.log st hst
  · rw [List.mem_singleton.mp hst]
    exact ⟨hid, h.pending_ne⟩

theorem closeStatement (h : t.Grounded) (lhs : Identifier) (value : F) :
    (t.closeStatement lhs value).2.Grounded := by
  obtain ⟨hid, hunused⟩ := Issuer.ne_of_settle h.unused_ne lhs
  exact (h.withIssuer hunused).append value fun _ => hid

theorem exchanged (h : t.Grounded) {id : Identifier} {x : Identifier × Issuer}
    (hx : t.issuer.exchange id = .ok x) :
    x.1 ≠ passive ∧ ({ t with issuer := x.2 } : Tape F).Grounded := by
  obtain ⟨hid, hunused⟩ := Issuer.ne_of_exchange h.unused_ne hx
  exact ⟨hid, h.withIssuer hunused⟩

theorem record (h : t.Grounded) (r : Record F) :
    ({ t with records := t.records ++ [r] }.append passive (.external t.records.length)
      0).Grounded := by
  have hadded : ({ t with records := t.records ++ [r] } : Tape F).Grounded :=
    ⟨h.primal_eq, h.unused_ne, h.pending_ne, h.log⟩
  exact hadded.append 0 fun hkind => absurd rfl (hkind _)

theorem addRecord (h : t.Grounded) {α : Type} {token : Token} {m n : Nat}
    {fill : Writer F → Writer F → Except Fault (α × Writer F × Writer F)} {x : α × Tape F}
    (hr : t.addRecord kernels token m n fill = .ok x) : x.2.Grounded := by
  obtain ⟨_, -, hr⟩ := exists_of_bind_eq_ok hr
  obtain ⟨⟨y, fixed, dynamic⟩, -, hr⟩ := exists_of_bind_eq_ok hr
  cases hr
  exact h.record _

end Grounded

theorem vectors_backTo {p : Position} (h : t.backTo kernels p = .ok s) :
    s.tape.vectors = t.vectors := by
  rw [backTo] at h
  split at h
  · obtain ⟨s₁, h₁, h⟩ := exists_of_bind_eq_ok h
    obtain ⟨m, -, h⟩ := exists_of_bind_eq_ok h
    obtain ⟨s₂, h₂, h₁⟩ := exists_of_bind_eq_ok h₁
    cases h
    cases h₁
    change s₂.tape.vectors = t.vectors
    refine foldlM_invariant (P := fun s : Traced F => s.tape.vectors = t.vectors) ?_ rfl h₂
    intro r _ s s' hs hdelete
    obtain ⟨kernel, -, hdelete⟩ := exists_of_bind_eq_ok hdelete
    obtain ⟨⟨_, replay⟩, -, hdelete⟩ := exists_of_bind_eq_ok hdelete
    cases hdelete
    exact hs
  · cases h

theorem Grounded.backTo (h : t.Grounded) {p : Position} (hr : t.backTo kernels p = .ok s) :
    s.tape.Grounded := by
  have hkeeps := backTo_keepsUpTo hr
  refine ⟨?_, ?_, ?_, fun st hst => ?_⟩
  · rw [vectors_backTo hr]
    exact h.primal_eq
  · rw [(Issuer.policy_rewind hkeeps.issuer_rewind).2]
    exact h.unused_ne
  · rw [hkeeps.pending_eq]
    exact nofun
  · rw [hkeeps.log_eq] at hst
    exact h.log st (List.mem_of_mem_take hst)

theorem Acts.grounded {accept : Position → Prop} {cs : List (Change F)} {ds : List (Deed F)}
    (ha : t.Acts accept cs ds t') (h : t.Grounded) : t'.Grounded := by
  cases ha with
  | issue => exact h.withIssuer (Issuer.ne_of_issue h.unused_ne).2
  | retire hr => exact h.retire hr
  | addArgument id weight => exact h.addArgument id weight
  | closeStatement lhs value => exact h.closeStatement lhs value
  | assign hr =>
    rw [Tape.assign] at hr
    split at hr
    · obtain ⟨t₁, h₁, hr⟩ := exists_of_bind_eq_ok hr
      cases hr
      exact h.retire h₁
    · cases hr
      exact (h.addArguments _).closeStatement _ _
  | @input y x hr =>
    obtain ⟨⟨id, m⟩, hm, hr⟩ := exists_of_bind_eq_ok hr
    cases hr
    obtain ⟨hid, hissued⟩ := h.exchanged hm
    dsimp only
    split
    · exact hissued.append _ fun _ => hid
    · exact hissued.mapPrimals fun p => Vectors.SamePassive.slot_set_passive p _ hid
  | output hr =>
    rw [Tape.output] at hr
    split at hr
    · cases hr
      exact h
    · obtain ⟨t₁, h₁, hr⟩ := exists_of_bind_eq_ok hr
      cases hr
      exact ((h.addArgument _ _).closeStatement _ _).retire h₁
  | freshOutput hr =>
    obtain ⟨⟨id, m⟩, hm, hr⟩ := exists_of_bind_eq_ok hr
    cases hr
    obtain ⟨hid, hissued⟩ := h.exchanged hm
    exact hissued.mapPrimals fun p => Vectors.SamePassive.slot_set_passive p _ hid
  | addRecord hr => exact h.addRecord hr
  | writeRecord hr =>
    obtain ⟨x, hx, hr⟩ := exists_of_bind_eq_ok hr
    cases hr
    exact h.addRecord hx
  | seed => exact ⟨h.primal_eq, h.unused_ne, h.pending_ne, h.log⟩
  | resizePrimals n =>
    refine h.mapPrimals fun p => ?_
    exact Slots.slot_resize_passive p n
  | shrink hr =>
    obtain ⟨pool, -, hr⟩ := exists_of_bind_eq_ok hr
    cases hr
    exact ⟨h.primal_eq, h.unused_ne, h.pending_ne, h.log⟩
  | stage => exact ⟨h.primal_eq, h.unused_ne, h.pending_ne, h.log⟩
  | tangentSweep hr =>
    exact h.samePassive (tangentSweep_sameRecording hr) (tangentSweep_samePassive h.log hr)
  | adjointSweep hr =>
    exact h.samePassive (adjointSweep_sameRecording hr) (adjointSweep_samePassive h.log hr)
  | backTo hr => exact h.backTo hr
  | clear hr =>
    obtain ⟨s₁, h₁, hr⟩ := exists_of_bind_eq_ok hr
    cases hr
    have hback := h.backTo h₁
    exact ⟨hback.primal_eq, hback.unused_ne, hback.pending_ne, hback.log⟩

theorem grounded_new (policy : Policy) (kind : TapeKind) : (new policy kind : Tape F).Grounded := by
  refine ⟨fun p hp => ?_, List.not_mem_nil, nofun, nofun⟩
  cases kind with
  | jacobian => cases hp
  | primalValues =>
    cases hp
    rfl

theorem Leads.grounded (h : t.Leads t') (ht : t.Grounded) : t'.Grounded := by
  induction h with
  | refl => exact ht
  | tail _ ha ih =>
    obtain ⟨cs, ds, ha⟩ := ha
    exact ha.grounded ih

end Tape

end Autodiff
