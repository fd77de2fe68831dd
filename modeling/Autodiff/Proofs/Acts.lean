import Autodiff.Proofs.Deeds
import Autodiff.Proofs.Ownership
import Autodiff.Proofs.Packing
import Autodiff.Tape.Records

namespace Autodiff

variable {F : Type} [Scalar F]

def Change.IsPlain : Change F → Prop
  | .argument _ _ => True
  | .statement _ _ _ => True
  | .record _ _ => False
  | .cut _ => False

theorem Contents.records_changes {c : Contents F} {cs : List (Change F)}
    (hcs : ∀ change ∈ cs, change.IsPlain) : (c.changes cs).records = c.records := by
  induction cs generalizing c with
  | nil => rfl
  | cons change cs ih =>
    refine (ih fun change h => hcs change (List.mem_cons_of_mem _ h)).trans ?_
    have hplain := hcs change List.mem_cons_self
    cases change with
    | argument id weight =>
      rw [Contents.change]
      split <;> rfl
    | statement => rfl
    | record => exact hplain.elim
    | cut => exact hplain.elim

namespace Tape

def overwriteOf (t : Tape F) (output : Identifier) (value : F) : Option (Overwrite F) :=
  t.vectors.primals.map fun p => ⟨value, replaced p output⟩

def statementOf (t : Tape F) (output : Identifier) (kind : StatementKind) (value : F) : Change F :=
  .statement output kind (t.overwriteOf output value)

def argumentsOf (args : List (Identifier × F)) : List (Change F) :=
  args.map fun a => .argument a.1 a.2

/-- One operation on a tape, which may go back to the positions that `accept` names. -/
inductive Acts (accept : Position → Prop) :
    Tape F → List (Change F) → List (Deed F) → Tape F → Prop
  | issue (t) : Acts accept t [] [] t.issue.2
  | retire {t id t'} (h : t.retire id = .ok t') : Acts accept t [] [] t'
  | addArgument (t id weight) :
      Acts accept t [.argument id weight] [] (t.addArgument id weight)
  | closeStatement (t lhs value) :
      Acts accept t [t.statementOf (t.closeStatement lhs value).1 .elementary value] []
        (t.closeStatement lhs value).2
  | assign {t lhs value args x} (h : t.assign lhs value args = .ok x) :
      Acts accept t (if args.all fun arg => arg.1 == passive then []
        else argumentsOf args ++ [t.statementOf x.1.identifier .elementary value]) [] x.2
  | input {t y x} (h : t.input y = .ok x) :
      Acts accept t (if t.traits.rollsBack then [t.statementOf x.1.identifier .input y.value]
        else []) [] x.2
  | output {t y x} (h : t.output y = .ok x) :
      Acts accept t (if y.identifier = passive then []
        else [.argument y.identifier 1, t.statementOf x.1.identifier .elementary y.value]) [] x.2
  | freshOutput {t y x} (h : t.freshOutput y = .ok x) : Acts accept t [] [] x.2.2
  | addRecord {t} {α : Type} {kernels : Kernels F} {token m n fill r} {x : α × Tape F}
      (h : t.addRecord kernels token m n fill = .ok x) (hr : x.2.records = t.records ++ [r]) :
      Acts accept t [.record r (t.overwriteOf passive 0)] [] x.2
  | writeRecord {t} {kernels : Kernels F} {token s a t' r}
      (h : t.writeRecord kernels token s a = .ok t') (hr : t'.records = t.records ++ [r]) :
      Acts accept t [.record r (t.overwriteOf passive 0)] [] t'
  | seed (t v) : Acts accept t [] [] (t.withAdjoints v)
  | resizePrimals (t n) :
      Acts accept t [] [] (t.withPrimals (t.vectors.primals.map (·.resize n)))
  | shrink {t t'} (h : t.shrink = .ok t') : Acts accept t [] [] t'
  | stage (t pool) : Acts accept t [] [] { t with pool := pool }
  | tangentSweep {t} {kernels : Kernels F} {start stop s}
      (h : t.tangentSweep kernels start stop = .ok s) :
      Acts accept t [] (t.tangentDeeds start stop) s.tape
  | adjointSweep {t} {kernels : Kernels F} {start stop s}
      (h : t.adjointSweep kernels start stop = .ok s) :
      Acts accept t [] (t.adjointDeeds start stop) s.tape
  | backTo {t} {kernels : Kernels F} {p s} (h : t.backTo kernels p = .ok s) (hp : accept p) :
      Acts accept t [.cut p] (t.deleteDeeds p.externals) s.tape
  | clear {t} {kernels : Kernels F} {s} (h : t.clear kernels = .ok s) :
      Acts accept t [.cut .zero] (t.deleteDeeds 0) s.tape

structure Changes (t : Tape F) (cs : List (Change F)) (t' : Tape F) : Prop where
  permits : t.contents.PermitsAll t.hasPrimals cs
  contents_eq : t'.contents = t.contents.changes cs
  hasPrimals_eq : t'.hasPrimals = t.hasPrimals

namespace Changes

variable {t t' t'' : Tape F} {cs cs' : List (Change F)}

theorem same (hcontents : t'.contents = t.contents) (hp : t'.hasPrimals = t.hasPrimals) :
    t.Changes [] t' := ⟨trivial, hcontents, hp⟩

theorem of_sameRecording (h : t.SameRecording t') : t.Changes [] t' := by
  refine same ?_ h.hasPrimals_eq
  rw [contents, h.log_eq, h.pending_eq, h.records_eq, contents]

theorem trans (h : t.Changes cs t') (h' : t'.Changes cs' t'') : t.Changes (cs ++ cs') t'' := by
  obtain ⟨hpermits, hcontents, hp⟩ := h'
  rw [h.contents_eq] at hpermits hcontents
  rw [h.hasPrimals_eq] at hpermits hp
  refine ⟨hpermits.append h.permits, ?_, hp⟩
  rw [hcontents, Contents.changes, Contents.changes, Contents.changes, List.foldl_append]

theorem withIssuer (t : Tape F) (m : Issuer) : t.Changes [] { t with issuer := m } := same rfl rfl

theorem addArgument (t : Tape F) (id : Identifier) (weight : F) :
    t.Changes [.argument id weight] (t.addArgument id weight) := by
  refine ⟨⟨trivial, trivial⟩, ?_, ?_⟩
  · change _ = t.contents.change (.argument id weight)
    rw [Tape.addArgument, Contents.change]
    split <;> rfl
  · rw [Tape.addArgument]
    split <;> rfl

theorem addArguments (t : Tape F) (args : List (Identifier × F)) :
    t.Changes (argumentsOf args) (t.addArguments args) := by
  induction args generalizing t with
  | nil => exact same rfl rfl
  | cons a args ih => exact (addArgument t a.1 a.2).trans (ih _)

theorem vectors_addArgument (t : Tape F) (id : Identifier) (weight : F) :
    (t.addArgument id weight).vectors = t.vectors := by
  rw [Tape.addArgument]
  split <;> rfl

theorem vectors_addArguments (t : Tape F) (args : List (Identifier × F)) :
    (t.addArguments args).vectors = t.vectors := by
  induction args generalizing t with
  | nil => rfl
  | cons a args ih => exact (ih _).trans (vectors_addArgument t a.1 a.2)

theorem append (t : Tape F) (output : Identifier) {kind : StatementKind} (value : F)
    (hkind : ∀ k, kind ≠ .external k) :
    t.Changes [t.statementOf output kind value] (t.append output kind value) :=
  ⟨⟨⟨Option.isSome_map .., hkind⟩, trivial⟩, rfl, Vectors.hasPrimals_setPrimal ..⟩

theorem closeStatement (t : Tape F) (lhs : Identifier) (value : F) :
    t.Changes [t.statementOf (t.closeStatement lhs value).1 .elementary value]
      (t.closeStatement lhs value).2 :=
  (withIssuer t (t.issuer.settle lhs).2).trans (append _ _ value nofun)

theorem retire {id : Identifier} (h : t.retire id = .ok t') : t.Changes [] t' := by
  obtain ⟨m, -, h⟩ := exists_of_bind_eq_ok h
  cases h
  exact withIssuer t m

theorem record (t : Tape F) (r : Record F) :
    t.Changes [.record r (t.overwriteOf passive 0)] ({ t with
      records := t.records ++ [r] }.append passive (.external t.records.length) 0) :=
  ⟨⟨Option.isSome_map .., trivial⟩, rfl, Vectors.hasPrimals_setPrimal ..⟩

theorem addRecord {α : Type} {kernels : Kernels F} {token : Token} {m n : Nat}
    {fill : Writer F → Writer F → Except Fault (α × Writer F × Writer F)} {x : α × Tape F}
    {r : Record F} (h : t.addRecord kernels token m n fill = .ok x)
    (hr : x.2.records = t.records ++ [r]) :
    t.Changes [.record r (t.overwriteOf passive 0)] x.2 := by
  obtain ⟨_, -, h⟩ := exists_of_bind_eq_ok h
  obtain ⟨⟨y, fixed, dynamic⟩, -, h⟩ := exists_of_bind_eq_ok h
  cases h
  obtain rfl := List.singleton_inj.mp (List.append_cancel_left hr)
  exact record t _

theorem backTo {kernels : Kernels F} {p : Position} {s : Traced F}
    (h : t.backTo kernels p = .ok s) : t.Changes [.cut p] s.tape := by
  have hkeeps := backTo_keepsUpTo h
  have haccepted : p.statements ≤ t.statementCount ∧ p.externals ≤ t.records.length := by
    by_contra hn
    rw [Tape.backTo, if_neg hn] at h
    cases h
  refine ⟨⟨haccepted, trivial⟩, ?_, hkeeps.hasPrimals_eq⟩
  rw [contents, hkeeps.log_eq, hkeeps.pending_eq, hkeeps.records_eq]
  rfl

end Changes

theorem Acts.changes {accept : Position → Prop} {t t' : Tape F} {cs : List (Change F)}
    {ds : List (Deed F)} (h : t.Acts accept cs ds t') : t.Changes cs t' := by
  cases h with
  | issue => exact .same rfl rfl
  | retire h => exact .retire h
  | addArgument id weight => exact .addArgument t id weight
  | closeStatement lhs value => exact .closeStatement t lhs value
  | @assign lhs value args x h =>
    rw [Tape.assign] at h
    split at h
    case isTrue hpassive =>
      rw [if_pos hpassive]
      obtain ⟨t₁, h₁, h⟩ := exists_of_bind_eq_ok h
      cases h
      exact .retire h₁
    case isFalse hactive =>
      rw [if_neg hactive]
      cases h
      have hclose := Changes.closeStatement (t.addArguments args) lhs.identifier value
      rw [statementOf, overwriteOf, Changes.vectors_addArguments] at hclose
      exact (Changes.addArguments t args).trans hclose
  | @input y x h =>
    obtain ⟨⟨id, m⟩, hm, h⟩ := exists_of_bind_eq_ok h
    cases h
    have htraits : ({ t with issuer := m } : Tape F).traits = t.traits :=
      congrArg (fun policy : Policy => (⟨t.hasPrimals, policy.isLinear⟩ : Traits))
        (Issuer.policy_exchange hm)
    simp only [htraits]
    split
    case isTrue => exact (Changes.withIssuer t m).trans (.append _ _ _ nofun)
    case isFalse => exact (Changes.withIssuer t m).trans (.same rfl (Vectors.hasPrimals_map ..))
  | @output y x h =>
    rw [Tape.output] at h
    split at h
    case isTrue hpassive =>
      cases h
      rw [if_pos hpassive]
      exact .same rfl rfl
    case isFalse hactive =>
      rw [if_neg hactive]
      obtain ⟨t₁, h₁, h⟩ := exists_of_bind_eq_ok h
      cases h
      have hclose := Changes.closeStatement (t.addArgument y.identifier 1) passive y.value
      rw [statementOf, overwriteOf, Changes.vectors_addArgument] at hclose
      exact ((Changes.addArgument t y.identifier 1).trans hclose).trans (.retire h₁)
  | freshOutput h =>
    obtain ⟨⟨id, m⟩, -, h⟩ := exists_of_bind_eq_ok h
    cases h
    exact .same rfl (Vectors.hasPrimals_map ..)
  | addRecord h hr => exact .addRecord h hr
  | writeRecord h hr =>
    obtain ⟨x, hx, h⟩ := exists_of_bind_eq_ok h
    cases h
    exact .addRecord hx hr
  | seed => exact .same rfl rfl
  | resizePrimals => exact .same rfl (Vectors.hasPrimals_map ..)
  | shrink h =>
    obtain ⟨pool, -, h⟩ := exists_of_bind_eq_ok h
    cases h
    exact .same rfl rfl
  | stage => exact .same rfl rfl
  | tangentSweep h => exact .of_sameRecording (tangentSweep_sameRecording h)
  | adjointSweep h => exact .of_sameRecording (adjointSweep_sameRecording h)
  | backTo h => exact .backTo h
  | clear h =>
    obtain ⟨s₁, h₁, h⟩ := exists_of_bind_eq_ok h
    cases h
    exact (Changes.backTo h₁).trans (.same rfl rfl)

theorem Acts.trichotomy {accept : Position → Prop} {t t' : Tape F} {cs : List (Change F)}
    {ds : List (Deed F)} (h : t.Acts accept cs ds t') :
    ((∀ c ∈ cs, c.IsPlain) ∧ ∀ d ∈ ds, d.Finds t) ∨
      (∃ r overwrite, cs = [.record r overwrite] ∧ ds = []) ∨
      ∃ p, cs = [.cut p] ∧ ds = t.deleteDeeds p.externals ∧ (accept p ∨ p = .zero) := by
  cases h with
  | assign h =>
    left
    split
    · exact ⟨nofun, nofun⟩
    · refine ⟨fun c hc => ?_, nofun⟩
      rcases List.mem_append.mp hc with hc | hc
      · obtain ⟨a, -, rfl⟩ := List.mem_map.mp hc
        trivial
      · rw [List.mem_singleton.mp hc]
        trivial
  | input h =>
    left
    split <;> simp [statementOf, Change.IsPlain]
  | output h =>
    left
    split <;> simp [statementOf, Change.IsPlain]
  | addArgument => simp [Change.IsPlain]
  | closeStatement => simp [statementOf, Change.IsPlain]
  | addRecord => exact .inr (.inl ⟨_, _, rfl, rfl⟩)
  | writeRecord => exact .inr (.inl ⟨_, _, rfl, rfl⟩)
  | tangentSweep h => exact .inl ⟨nofun, finds_tangentDeeds h⟩
  | adjointSweep h => exact .inl ⟨nofun, finds_adjointDeeds h⟩
  | backTo h hp => exact .inr (.inr ⟨_, rfl, rfl, .inl hp⟩)
  | clear h => exact .inr (.inr ⟨_, rfl, rfl, .inr rfl⟩)
  | _ => exact .inl ⟨nofun, nofun⟩

end Tape

end Autodiff
