import Autodiff.Proofs.Usage
import Autodiff.Tape.Statistics

namespace Autodiff

open Issuer

variable {F : Type} [Scalar F] {n : Nat}

theorem mem_range'_one {k largest : Nat} : k ∈ List.range' 1 largest ↔ k ≠ 0 ∧ k ≤ largest := by
  rw [List.mem_range'_1]
  omega

namespace Issuer

variable {m m' : Issuer} {ids ids' : Fin n → Identifier}

structure Parts (m : Issuer) (ids : Fin n → Identifier) : Prop where
  lends : m.Lends ids
  sole : ∀ v, Sole ids v
  covers : m.Covers (Set.range ids)

def held (ids : Fin n → Identifier) : List Identifier := (List.ofFn ids).filter (· != passive)

theorem mem_held {id : Identifier} : id ∈ held ids ↔ id ≠ passive ∧ ∃ v, ids v = id := by
  rw [held, List.mem_filter, List.mem_ofFn, bne_iff_ne, and_comm]

theorem parts_new (policy : Policy) : (new policy).Parts fun _ : Fin n => passive := by
  refine ⟨lends_new policy, fun _ => sole_of_passive rfl, ?_⟩
  intro _ id hid hle
  exact absurd (Nat.le_zero.mp hle) hid

namespace Parts

theorem handover (h : m.Parts ids) (hover : m.Handover ids m' ids') : m'.Parts ids' :=
  ⟨hover.lends, fun v => hover.sole (h.sole v), hover.covers h.covers⟩

theorem rewind {largest : Identifier} (h : m.Parts ids) (hm : m.rewind largest = .ok m') :
    m'.Parts (m.within largest ids) :=
  ⟨h.lends.rewind hm, fun v => (h.sole v).within m largest, h.covers.rewind hm⟩

theorem nodup_held (h : m.Parts ids) : (held ids).Nodup := by
  rw [held, List.nodup_iff_pairwise_ne, List.pairwise_filter, List.pairwise_ofFn]
  intro v w hlt hv _
  exact (h.sole v (bne_iff_ne.mp hv) w hlt.ne').symm

theorem bounds (h : m.Parts ids) {id : Identifier} (hid : id ∈ held ids) :
    1 ≤ id ∧ id ≤ m.largest := by
  obtain ⟨hne, v, rfl⟩ := mem_held.mp hid
  exact ⟨Nat.pos_of_ne_zero hne, h.lends.held_le v⟩

theorem perm (h : m.Parts ids) (hp : m.policy = .reuse) :
    (held ids ++ m.unused).Perm (List.range' 1 m.largest) := by
  have hguards : m.Guards (owners ids) := h.lends
  have hnodup : (held ids ++ m.unused).Nodup := by
    rw [List.nodup_append]
    refine ⟨h.nodup_held, hguards.unused_nodup, ?_⟩
    rintro id hid _ hunused rfl
    obtain ⟨-, v, rfl⟩ := mem_held.mp hid
    exact h.lends.held_unused v hunused
  apply (List.perm_ext_iff_of_nodup hnodup List.nodup_range').mpr
  intro id
  rw [List.mem_append, mem_range'_one]
  constructor
  · rintro (hid | hid)
    · exact ⟨(mem_held.mp hid).1, (h.bounds hid).2⟩
    · exact ⟨fun hp : id = passive => hguards.unused_ne (hp ▸ hid), hguards.unused_le id hid⟩
  · rintro ⟨hne, hle⟩
    rcases h.covers hp id hne hle with hid | hid
    · exact .inr hid
    · exact .inl (mem_held.mpr ⟨hne, hid⟩)

theorem length_held (h : m.Parts ids) (hp : m.policy = .reuse) :
    (held ids).length + m.unused.length = m.largest := by
  have hlength := (h.perm hp).length_eq
  rwa [List.length_append, List.length_range'] at hlength

end Parts

end Issuer

namespace Tape

variable {t : Tape F}

theorem report_live {held : List Identifier} (hp : t.issuer.policy = .reuse)
    (hlength : held.length + t.issuer.unused.length = t.issuer.largest) :
    Yields t.report fun report =>
      report.find? "Index manager" "Cur. live indices" = some (.unsigned held.length) := by
  have hle : t.issuer.unused.length ≤ t.issuer.largest := by
    rw [← hlength]
    exact Nat.le_add_left ..
  have hlive : t.issuer.largest - t.issuer.unused.length = held.length := by
    rw [← hlength]
    exact Nat.add_sub_cancel ..
  have hissuer (report : Report) : t.issuer.report report = .ok
      ((((report.addSection "Index manager").addUnsigned "Max. live indices"
        t.issuer.largest).addUnsigned "Cur. live indices" held.length).addUnsigned
          "Indices stored" t.issuer.unused.length |>.addMemory "Memory used"
            (t.issuer.unused.length * 4)) := by
    rw [Issuer.report, hp]
    dsimp only
    rw [if_pos hle, hlive]
  rw [report]
  simp only [hissuer]
  refine .ok ?_
  rw [reportPrimals]
  cases t.vectors.primals <;> simp [Report.find?, Report.new, Report.addSection,
    Report.addUnsigned, Report.addMemory, Report.addDouble, Report.add, Report.addToLast]

end Tape

def Transfer.Careful (r : Recording F) : Transfer F n → Prop
  | create v => (r.get v).identifier = passive
  | copy _ _ => False
  | instruct (.line (.constant v _)) => (r.get v).identifier = passive
  | _ => True

namespace Recording

def held (r : Recording F) : List Identifier :=
  (r.vars.map Variable.identifier).filter (· != passive)

structure Exclusive (n : Nat) (r : Recording F) : Prop where
  nodup : r.held.Nodup
  bounds : ∀ id ∈ r.held, 1 ≤ id ∧ id ≤ r.tape.issuer.largest
  partition : r.tape.issuer.policy = .reuse →
    (r.held ++ r.tape.issuer.unused).Perm (List.range' 1 r.tape.issuer.largest)
  issue_notMem : r.tape.issue.1 ∉ r.held
  apply_ne : ∀ (c : Catalogue F) (x : Transfer F n), x.Careful r → ∀ id,
    x.apply c r ≠ .error (.neverIssued id)
  live : r.tape.issuer.policy = .reuse → Yields r.tape.report fun report =>
    report.find? "Index manager" "Cur. live indices" = some (.unsigned r.held.length)

variable {r r' : Recording F} {f : Fin n → Variable F}

theorem held_eq (hr : r.vars = List.ofFn f) : r.held = Issuer.held (Tape.idsOf f) := by
  rw [held, hr, List.map_ofFn]
  rfl

theorem apply_parts {c : Catalogue F} {x : Transfer F n} (hr : r.vars = List.ofFn f)
    (h : r.tape.issuer.Parts (Tape.idsOf f)) (hx : x.Careful r) :
    Accounts (x.apply c r) fun r' => r'.Abides (Issuer.Parts (n := n)) := by
  have hkept (v : Fin n) (hv : (r.get v).identifier = passive) :
      Function.update (Tape.idsOf f) v passive = Tape.idsOf f := by
    rw [get_of_vars hr] at hv
    exact Function.update_eq_self_iff.mpr hv.symm
  have hoverwrite : x.overwrite (Tape.idsOf f) = Tape.idsOf f := by
    cases x with
    | create v => exact hkept v hx
    | copy u v => exact hx.elim
    | externalOutput v => rfl
    | instruct i =>
      cases i with
      | line l =>
        cases l with
        | constant v value => exact hkept v hx
        | _ => rfl
      | _ => rfl
  apply (x.apply_moves c hr h.lends fun _ v _ => h.sole v).mono
  rintro r' ⟨g, hmoves⟩
  have hover := hmoves.hands
  rw [hoverwrite] at hover
  exact ⟨g, hmoves.vars_eq, h.handover hover⟩

theorem Uses.exclusive (h : r.Uses (Transfer.Careful (n := n))) : r.Exclusive n := by
  have habides : r.Abides (Issuer.Parts (n := n)) := by
    apply h.abides parts_new
    · rintro c x r r' hx ⟨f, hr, hparts⟩ happly
      exact (apply_parts hr hparts hx).of_eq_ok happly
    · intro m ids m' largest hparts hm
      exact hparts.rewind hm
  obtain ⟨f, hr, hparts⟩ := habides
  have hheld := held_eq hr
  refine ⟨?_, ?_, ?_, ?_, fun c x hx => (apply_parts hr hparts hx).ne, fun hp => ?_⟩
  · rw [hheld]
    exact hparts.nodup_held
  · rw [hheld]
    exact fun id => hparts.bounds
  · rw [hheld]
    exact hparts.perm
  · rw [hheld, mem_held]
    rintro ⟨-, v, hv⟩
    exact hparts.lends.issue_ne v hv
  · rw [hheld]
    exact Tape.report_live hp (hparts.length_held hp)

def unregistered : Catalogue Int := ⟨fun _ => none, fun _ => ⟨0⟩⟩

theorem Uses.exclusive_recycled : ∃ r : Recording Int,
    r.Uses (Transfer.Careful (n := 4)) ∧ r.held = [3, 1, 2] ∧ r.tape.issuer.unused = [] ∧
      r.Exclusive 4 := by
  have fresh : Uses (Transfer.Careful (n := 4)) _ := .fresh .reuse .primalValues fun _ => (3 : Int)
  have registered := fresh.transfer (c := unregistered) (x := .instruct (.input 0)) trivial rfl
  have stored := registered.transfer (c := unregistered)
    (x := .instruct (.line (.assign 1 6 [(0, 2)]))) trivial rfl
  have output := stored.transfer (c := unregistered) (x := .instruct (.line (.output 1)))
    trivial rfl
  have created := output.transfer (c := unregistered) (x := .create 3) rfl rfl
  have released := created.transfer (c := unregistered) (x := .instruct (.line (.release 0)))
    trivial rfl
  have placed := released.transfer (c := unregistered) (x := .externalOutput 2) trivial rfl
  exact ⟨_, placed, rfl, rfl, placed.exclusive⟩

end Recording

end Autodiff
