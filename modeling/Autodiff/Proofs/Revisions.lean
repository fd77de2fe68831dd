import Autodiff.Proofs.OrderedSweeps
import Autodiff.Proofs.RisingIdentifiers
import Autodiff.Proofs.SharedHandles
import Autodiff.Proofs.Usage

namespace Autodiff

variable {F : Type} [Scalar F] {n : Nat}

namespace Issuer

variable {m m' : Issuer} {largest : Identifier}

theorem rewind_cases (h : m.rewind largest = .ok m') :
    (m.policy = .linear ∧ m' = { m with largest := largest }) ∨ (m.policy = .reuse ∧ m' = m) := by
  rw [rewind] at h
  cases hp : m.policy with
  | linear =>
    simp only [hp] at h
    split at h
    · exact .inl ⟨rfl, (Except.ok.inj h).symm⟩
    · cases h
  | reuse =>
    simp only [hp] at h
    exact .inr ⟨rfl, (Except.ok.inj h).symm⟩

theorem Bounded.rewind (hm : m.Bounded) (hlinear : m.policy = .linear → m.unused = [])
    (h : m.rewind largest = .ok m') : m'.Bounded := by
  rcases rewind_cases h with ⟨hp, rfl⟩ | ⟨-, rfl⟩
  · intro id hid
    rw [hlinear hp] at hid
    exact absurd hid List.not_mem_nil
  · exact hm

end Issuer

namespace Tape

variable {token : Token} {t t' : Tape F} {xs ys : List (Variable F)} {p q : Position}

theorem issuer_releaseAll (h : t.releaseAll xs = .ok (ys, t')) : t.issuer.Onward t'.issuer := by
  induction xs generalizing t ys with
  | nil =>
    cases h
    exact .refl _
  | cons x xs ih =>
    obtain ⟨⟨y, t₁⟩, h₁, h⟩ := exists_of_bind_eq_ok h
    obtain ⟨⟨zs, t₂⟩, h₂, h⟩ := exists_of_bind_eq_ok h
    cases h
    exact (issuer_release h₁).trans (ih h₂)

theorem issuer_placeOutput {x y : Variable F} {active : Bool} {old : F}
    (h : t.placeOutput x active = .ok (old, y, t')) : t.issuer.Onward t'.issuer := by
  cases active with
  | true => exact issuer_freshOutput h
  | false =>
    obtain ⟨⟨y₁, t₁⟩, h₁, h⟩ := exists_of_bind_eq_ok h
    cases h
    exact issuer_release h₁

theorem issuer_placeOutputs {a a' : Staged F} {places : List (Nat × Bool)}
    (h : t.placeOutputs xs a places = .ok (ys, a', t')) : t.issuer.Onward t'.issuer := by
  induction places generalizing t xs a with
  | nil =>
    cases h
    exact .refl _
  | cons place places ih =>
    obtain ⟨⟨old, y, t₁⟩, h₁, h⟩ := exists_of_bind_eq_ok h
    exact (issuer_placeOutput h₁).trans (ih h)

theorem issuer_multiply [LawfulCells F] {kernels : Kernels F} {s : MatrixOrder}
    {rows inner cols : Nat} {a b : List (Variable F)}
    (h : Product.multiply t kernels token s rows inner cols a b xs = .ok (ys, t')) :
    t.issuer.Onward t'.issuer := by
  obtain ⟨-, ⟨-, hys⟩ | ⟨-, t₁, record, sr, sr', pool, pool', hys, -, -, -, rfl⟩⟩ :=
    Product.exists_placed_of_multiply_eq_ok h
  · exact issuer_releaseAll hys
  · have hissuer := issuer_placeOutputs hys
    exact hissuer

structure Upholds (token : Token) (t : Tape F) (p : Position) : Prop where
  before : p.Before t.position
  log : ∀ st ∈ t.log.take p.statements, st.Within p.largest p.externals
  records : ∀ record ∈ t.records.take p.externals, record.Within t.traits token p.largest

namespace Upholds

theorem position (h : t.Bounded token) : t.Upholds token t.position :=
  ⟨⟨Nat.le_refl _, Nat.le_refl _, Nat.le_refl _⟩, fun st hst => h.log st (List.mem_of_mem_take hst),
    fun record hrecord => h.records record (List.mem_of_mem_take hrecord)⟩

theorem grows (h : t.Upholds token p) (hgrows : t.Grows token t')
    (hle : t.issuer.largest ≤ t'.issuer.largest) : t'.Upholds token p := by
  obtain ⟨tail, hlog⟩ := hgrows.log
  obtain ⟨added, hrecords, -⟩ := hgrows.records
  have hlogTake : t'.log.take p.statements = t.log.take p.statements := by
    rw [← hlog, List.take_append_of_le_length h.before.statements_le]
  have hrecordsTake : t'.records.take p.externals = t.records.take p.externals := by
    rw [hrecords, List.take_append_of_le_length h.before.externals_le]
  refine ⟨h.before.trans ⟨hgrows.log.length_le, ?_, hle⟩, hlogTake ▸ h.log, ?_⟩
  · change t.records.length ≤ t'.records.length
    rw [hrecords, List.length_append]
    exact Nat.le_add_right ..
  · rw [hrecordsTake, hgrows.traits_eq]
    exact h.records

theorem sameRecording (h : t.Upholds token p) (hsame : t.SameRecording t') :
    t'.Upholds token p :=
  h.grows (.of_records_eq (hsame.log_eq ▸ List.prefix_rfl) hsame.records_eq hsame.hasPrimals_eq
    (congrArg Issuer.policy hsame.issuer_eq)) (congrArg Issuer.largest hsame.issuer_eq).ge

theorem backTo (h : t.Upholds token q) (hq : q.Before p) (hp : p.Before t.position)
    (hcut : t.KeepsUpTo t' p) : t'.Upholds token q := by
  have htraits : t'.traits = t.traits := by
    rw [traits, traits, hcut.hasPrimals_eq, (Issuer.policy_rewind hcut.issuer_rewind).1]
  have hlargest : p.largest ≤ t'.issuer.largest := by
    rcases Issuer.rewind_cases hcut.issuer_rewind with ⟨-, hm⟩ | ⟨-, hm⟩
    · rw [hm]
    · rw [hm]
      exact hp.largest_le
  refine ⟨hq.trans ⟨?_, ?_, hlargest⟩, ?_, ?_⟩
  · change p.statements ≤ t'.log.length
    rw [hcut.log_eq, List.length_take_of_le hp.statements_le]
  · change p.externals ≤ t'.records.length
    rw [hcut.records_eq, List.length_take_of_le hp.externals_le]
  · rw [hcut.log_eq, List.take_take, Nat.min_eq_left hq.statements_le]
    exact h.log
  · rw [hcut.records_eq, List.take_take, Nat.min_eq_left hq.externals_le, htraits]
    exact h.records

theorem bounded_backTo (h : t.Upholds token p) (hissuer : t'.issuer.Bounded)
    (hcut : t.KeepsUpTo t' p) : t'.Bounded token := by
  obtain ⟨hbefore, hlog, hrecords⟩ :=
    h.backTo ⟨Nat.le_refl _, Nat.le_refl _, Nat.le_refl _⟩ h.before hcut
  rw [hcut.log_eq, List.take_take, Nat.min_self] at hlog
  rw [hcut.records_eq, List.take_take, Nat.min_self] at hrecords
  refine ⟨hissuer, ?_, fun st hst => ?_, fun record hrecord => ?_⟩
  · rw [hcut.pending_eq]
    exact fun a ha => absurd ha List.not_mem_nil
  · rw [hcut.log_eq] at hst
    exact (hlog st hst).mono hbefore.largest_le hbefore.externals_le
  · rw [hcut.records_eq] at hrecord
    exact (hrecords record hrecord).mono hbefore.largest_le

end Upholds

end Tape

namespace Transfer

open Tape

variable {c : Catalogue F} {r r' : Recording F} {x : Transfer F n}

theorem issuer_apply [LawfulCells F] (hr : x.apply c r = .ok r') :
    r.tape.issuer.Onward r'.tape.issuer := by
  cases x with
  | create v =>
    cases hr
    exact .issue _
  | copy u v =>
    cases hr
    exact .refl _
  | externalOutput v =>
    obtain ⟨⟨note, r₁⟩, h₁, hr⟩ := exists_of_bind_eq_ok hr
    obtain ⟨⟨old, y, t⟩, hy, h₁⟩ := exists_of_bind_eq_ok h₁
    cases h₁
    cases hr
    exact issuer_freshOutput hy
  | instruct i =>
    obtain ⟨⟨note, r₁⟩, h₁, hr⟩ := exists_of_bind_eq_ok hr
    cases hr
    cases i with
    | input v =>
      obtain ⟨⟨y, t⟩, hy, h₁⟩ := exists_of_bind_eq_ok h₁
      cases h₁
      exact issuer_input hy
    | multiply p =>
      obtain ⟨⟨ys, t⟩, hys, h₁⟩ := exists_of_bind_eq_ok h₁
      cases h₁
      rw [Recording.setAll_tape]
      exact issuer_multiply hys
    | line l =>
      cases l with
      | constant v value =>
        cases h₁
        exact .refl _
      | assign v value args =>
        obtain ⟨⟨y, t⟩, hy, h₁⟩ := exists_of_bind_eq_ok h₁
        cases h₁
        exact issuer_assign hy
      | output v =>
        obtain ⟨⟨y, t⟩, hy, h₁⟩ := exists_of_bind_eq_ok h₁
        cases h₁
        exact issuer_output hy
      | release v =>
        obtain ⟨⟨y, t⟩, hy, h₁⟩ := exists_of_bind_eq_ok h₁
        cases h₁
        exact issuer_release hy

end Transfer

namespace Recording

/-- The recordings of `n` variables that transfers, seeds, sweeps and resets lead to, each with
positions that it has passed through, the last one first. -/
inductive Evolves (n : Nat) (c : Catalogue F) : Recording F → List Position → Prop
  | fresh (policy kind) (values : Fin n → F) : Evolves n c (.fresh policy kind values) []
  | transfer {r ps r'} (h : Evolves n c r ps) {x : Transfer F n} (hr : x.apply c r = .ok r') :
      Evolves n c r' ps
  | mark {r ps} (h : Evolves n c r ps) : Evolves n c r (r.tape.position :: ps)
  | seed {r ps} (h : Evolves n c r ps) (v : Slots F) :
      Evolves n c (r.withTape (r.tape.withAdjoints v)) ps
  | tangentSweep {r ps start stop s} (h : Evolves n c r ps)
      (hs : r.tape.tangentSweep c.kernels start stop = .ok s) : Evolves n c (r.withTape s.tape) ps
  | adjointSweep {r ps start stop s} (h : Evolves n c r ps)
      (hs : r.tape.adjointSweep c.kernels start stop = .ok s) : Evolves n c (r.withTape s.tape) ps
  | backTo {r qs p ps s} (h : Evolves n c r (qs ++ p :: ps))
      (hs : r.tape.backTo c.kernels p = .ok s) : Evolves n c (r.rewound s.tape p.largest) (p :: ps)

structure Consistent (token : Token) (r : Recording F) (ps : List Position) : Prop where
  bounded : r.Bounded token
  lent_eq : r.tape.pool.lent = 0
  unused_linear : r.tape.issuer.policy = .linear → r.tape.issuer.unused = []
  upholds : ∀ p ∈ ps, r.tape.Upholds token p
  nested : ps.Pairwise fun p q => q.Before p

theorem Bounded.rewound {token : Token} {r : Recording F} {t : Tape F} {p : Position}
    (h : r.Bounded token) (ht : t.Bounded token) (hcut : r.tape.KeepsUpTo t p) :
    (r.rewound t p.largest).Bounded token := by
  have hpolicy := (Issuer.policy_rewind hcut.issuer_rewind).1
  rw [Recording.rewound, hpolicy]
  rcases Issuer.rewind_cases hcut.issuer_rewind with ⟨hp, hm⟩ | ⟨hp, hm⟩
  · rw [hp]
    refine ⟨ht, fun x hx => ?_⟩
    obtain ⟨y, -, rfl⟩ := List.mem_map.mp hx
    rw [hm]
    split
    case isTrue hle => exact hle
    case isFalse => exact Nat.zero_le _
  · rw [hp]
    refine ⟨ht, fun x hx => ?_⟩
    change _ ≤ t.issuer.largest
    rw [hm]
    exact h.vars_le x hx

namespace Consistent

variable {token : Token} {r r' : Recording F} {ps qs : List Position} {p : Position}

theorem sameRecording (h : r.Consistent token ps) {t : Tape F} (hsame : r.tape.SameRecording t)
    (hlent : t.pool.lent = 0) : (r.withTape t).Consistent token ps := by
  have hbounded : t.Bounded token := by
    obtain ⟨hissuer, hpending, hlog, hrecords⟩ := h.bounded.tape
    rw [← hsame.issuer_eq] at hissuer hpending hlog hrecords
    rw [← hsame.pending_eq] at hpending
    rw [← hsame.log_eq, ← hsame.records_eq] at hlog
    rw [← hsame.records_eq, ← hsame.traits_eq] at hrecords
    exact ⟨hissuer, hpending, hlog, hrecords⟩
  refine ⟨⟨hbounded, ?_⟩, hlent, ?_, fun p hp => (h.upholds p hp).sameRecording hsame, h.nested⟩
  · rw [withTape, hsame.issuer_eq]
    exact h.bounded.vars_le
  · rw [withTape, hsame.issuer_eq]
    exact h.unused_linear

theorem mark (h : r.Consistent token ps) : r.Consistent token (r.tape.position :: ps) :=
  ⟨h.bounded, h.lent_eq, h.unused_linear,
    List.forall_mem_cons.mpr ⟨.position h.bounded.tape, h.upholds⟩,
    List.pairwise_cons.mpr ⟨fun p hp => (h.upholds p hp).before, h.nested⟩⟩

theorem backTo [LawfulCells F] {kernels : Kernels F} {s : Traced F}
    (hk : kernels token = some Product.kernel) (h : r.Consistent token (qs ++ p :: ps))
    (hs : r.tape.backTo kernels p = .ok s) :
    (r.rewound s.tape p.largest).Consistent token (p :: ps) := by
  have hmem {q : Position} (hq : q ∈ p :: ps) : q ∈ qs ++ p :: ps := List.mem_append_right qs hq
  have hnested := (List.pairwise_append.mp h.nested).2.1
  have hwithin : ∀ q ∈ p :: ps, q.Before p :=
    List.forall_mem_cons.mpr ⟨⟨Nat.le_refl _, Nat.le_refl _, Nat.le_refl _⟩,
      (List.pairwise_cons.mp hnested).1⟩
  have hp := h.upholds p (hmem List.mem_cons_self)
  have hcut := Tape.backTo_keepsUpTo hs
  obtain ⟨hpolicy, hunused⟩ := Issuer.policy_rewind hcut.issuer_rewind
  have hissuer : s.tape.issuer.Bounded :=
    h.bounded.tape.issuer.rewind h.unused_linear hcut.issuer_rewind
  have hlent : s.tape.pool.lent = 0 := by
    obtain ⟨s', hs', pool, hlent, htape⟩ := Tape.backTo_yields hk h.lent_eq
      hp.before.statements_le hp.before.externals_le hcut.issuer_rewind fun record hrecord =>
        let ⟨c, olds, hstores, _⟩ := h.bounded.tape.records record (List.mem_of_mem_drop hrecord)
        ⟨c, olds, hstores⟩
    obtain rfl : s' = s := Except.ok.inj (hs'.symm.trans hs)
    rw [htape]
    exact hlent
  refine ⟨h.bounded.rewound (hp.bounded_backTo hissuer hcut) hcut, ?_, ?_, ?_, hnested⟩
  all_goals rw [tape_rewound]
  · exact hlent
  · rw [hpolicy, hunused]
    exact h.unused_linear
  · exact fun q hq => (h.upholds q (hmem hq)).backTo (hwithin q hq) hp.before hcut

end Consistent

theorem Evolves.consistent [LawfulCells F] {c : Catalogue F} {r : Recording F}
    {ps : List Position} (hk : c.kernels (c.token .product) = some Product.kernel)
    (h : r.Evolves n c ps) : r.Consistent (c.token .product) ps := by
  induction h with
  | fresh policy kind values =>
    exact ⟨bounded_fresh _ policy kind values, rfl, fun _ => rfl, nofun, .nil⟩
  | transfer _ hr ih =>
    have hissuer := Transfer.issuer_apply hr
    exact ⟨Transfer.bounded ih.bounded hr, (Transfer.lent_eq hr).trans ih.lent_eq,
      hissuer.unused_linear ih.unused_linear,
      fun p hp => (ih.upholds p hp).grows (Transfer.apply_grows hr) hissuer.largest_le, ih.nested⟩
  | mark _ ih => exact ih.mark
  | seed _ v ih => exact ih.sameRecording ⟨rfl, rfl, rfl, rfl, rfl⟩ ih.lent_eq
  | tangentSweep _ hs ih =>
    exact ih.sameRecording (Tape.tangentSweep_sameRecording hs)
      (Tape.tangentSweep_lent_eq hk ih.bounded.tape ih.lent_eq hs)
  | adjointSweep _ hs ih =>
    exact ih.sameRecording (Tape.adjointSweep_sameRecording hs)
      (Tape.adjointSweep_lent_eq hk ih.bounded.tape ih.lent_eq hs)
  | backTo _ hs ih => exact ih.backTo hk hs

end Recording

end Autodiff
