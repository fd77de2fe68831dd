import Autodiff.Proofs.Bounds
import Autodiff.Proofs.Contents
import Autodiff.Proofs.Deletion

namespace Autodiff

variable {F : Type} [Scalar F]

namespace Issuer

def upTo (n : Identifier) : Issuer := ⟨.linear, n, []⟩

theorem bounded_upTo (n : Identifier) : (upTo n).Bounded := fun _ h => absurd h List.not_mem_nil

theorem retire_upTo (n id : Identifier) : (upTo n).retire id = .ok (upTo n) := rfl

theorem exchange_upTo (n id : Identifier) : (upTo n).exchange id = .ok (n + 1, upTo (n + 1)) := rfl

end Issuer

open Issuer

namespace Position

structure Before (p q : Position) : Prop where
  statements_le : p.statements ≤ q.statements
  externals_le : p.externals ≤ q.externals
  largest_le : p.largest ≤ q.largest

theorem Before.trans {p q r : Position} (h : p.Before q) (h' : q.Before r) : p.Before r :=
  ⟨h.statements_le.trans h'.statements_le, h.externals_le.trans h'.externals_le,
    h.largest_le.trans h'.largest_le⟩

end Position

namespace Tape

variable {token : Token} {t t' : Tape F} {st : Statement F} {p q : Position}

def sources (t : Tape F) (st : Statement F) : List Identifier :=
  st.arguments.map Prod.fst ++ t.factors st

def Precedes (t : Tape F) (st st' : Statement F) : Prop :=
  ∀ id ∈ t.outputs st', id ≠ passive → ∀ i ∈ t.outputs st ++ t.sources st, i < id

structure Ascending (token : Token) (t : Tape F) : Prop where
  bounded : t.Bounded token
  outputs_le : ∀ st ∈ t.log, ∀ id ∈ t.outputs st, id ≤ t.issuer.largest
  distinct : ∀ st ∈ t.log, DistinctActive (t.outputs st)
  sources_lt : ∀ st ∈ t.log, ∀ id ∈ t.outputs st, id ≠ passive → ∀ i ∈ t.sources st, i < id
  rises : t.log.Pairwise t.Precedes

theorem ascending_new (token : Token) (policy : Policy) (kind : TapeKind) :
    (new policy kind : Tape F).Ascending token :=
  ⟨bounded_new token policy kind, nofun, nofun, nofun, .nil⟩

theorem Bounded.sources_le [LawfulCells F] (h : t.Bounded token) (hst : st ∈ t.log) :
    ∀ i ∈ t.sources st, i ≤ t.issuer.largest := by
  intro i hi
  have hwithin := h.log st hst
  rcases List.mem_append.mp hi with hi | hi
  · obtain ⟨a, ha, rfl⟩ := List.mem_map.mp hi
    exact hwithin.arguments_le a ha
  · cases hkind : st.kind with
    | elementary => simp [factors, hkind] at hi
    | input => simp [factors, hkind] at hi
    | external k =>
      have hlt := hwithin.record_lt k hkind
      obtain ⟨c, olds, hstores, -, hle⟩ := h.records _ (List.getElem_mem hlt)
      simp only [factors, hkind, List.getElem?_eq_getElem hlt, Option.map_some,
        Option.getD_some] at hi
      obtain ⟨x, hx, rfl⟩ := hstores.exists_of_mem_factors hi
      exact hle x hx

theorem outputs_congr {added : List (Record F)} {n : Identifier}
    (hst : st.Within n t.records.length) (hrecords : t'.records = t.records ++ added)
    (htraits : t'.traits = t.traits) :
    t'.outputs st = t.outputs st ∧ t'.sources st = t.sources st := by
  cases hkind : st.kind with
  | elementary => simp [outputs, sources, factors, hkind]
  | input => simp [outputs, sources, factors, hkind]
  | external k =>
    have hlt := hst.record_lt k hkind
    simp only [outputs, sources, factors, hkind, hrecords, htraits,
      List.getElem?_append_left hlt, and_self]

namespace Ascending

theorem rest (h : t.Ascending token) (hissuer : t'.issuer.Bounded)
    (hpending : ∀ a ∈ t'.pending, a.1 ≤ t'.issuer.largest) (hlog : t'.log = t.log)
    (hrecords : t'.records = t.records) (htraits : t'.traits = t.traits)
    (hle : t.issuer.largest ≤ t'.issuer.largest) : t'.Ascending token := by
  have houtputs (st : Statement F) : t'.outputs st = t.outputs st := by
    simp only [outputs, hrecords, htraits]
  have hsources (st : Statement F) : t'.sources st = t.sources st := by
    simp only [sources, factors, hrecords, htraits]
  have hprecedes : t'.Precedes = t.Precedes := by
    funext st st'
    simp only [Precedes, houtputs, hsources]
  refine ⟨⟨hissuer, hpending, fun st hst => ?_, fun record hrecord => ?_⟩,
    fun st hst id hid => ?_, ?_, ?_, ?_⟩
  · rw [hlog] at hst
    rw [hrecords]
    exact (h.bounded.log st hst).mono hle (Nat.le_refl _)
  · rw [hrecords] at hrecord
    rw [htraits]
    exact (h.bounded.records record hrecord).mono hle
  · rw [hlog] at hst
    rw [houtputs] at hid
    exact (h.outputs_le st hst id hid).trans hle
  all_goals simp only [hlog, houtputs, hsources, hprecedes]
  · exact h.distinct
  · exact h.sources_lt
  · exact h.rises

theorem extend [LawfulCells F] (h : t.Ascending token) (hbounded : t'.Bounded token)
    {added : List (Record F)} (hlog : t'.log = t.log ++ [st])
    (hrecords : t'.records = t.records ++ added) (htraits : t'.traits = t.traits)
    (hle : t.issuer.largest ≤ t'.issuer.largest)
    (houtputs : ∀ id ∈ t'.outputs st, id ≠ passive → t.issuer.largest < id)
    (hupto : ∀ id ∈ t'.outputs st, id ≤ t'.issuer.largest)
    (hdistinct : DistinctActive (t'.outputs st))
    (hsources : ∀ i ∈ t'.sources st, i ≤ t.issuer.largest) : t'.Ascending token := by
  have hsame {st₀ : Statement F} (hst : st₀ ∈ t.log) :
      t'.outputs st₀ = t.outputs st₀ ∧ t'.sources st₀ = t.sources st₀ :=
    outputs_congr (h.bounded.log st₀ hst) hrecords htraits
  have hmem {st₀ : Statement F} (hst : st₀ ∈ t'.log) : st₀ ∈ t.log ∨ st₀ = st := by
    rw [hlog] at hst
    exact (List.mem_append.mp hst).imp_right List.mem_singleton.mp
  refine ⟨hbounded, fun st₀ hst => ?_, fun st₀ hst => ?_, fun st₀ hst => ?_, ?_⟩
  · rcases hmem hst with hst | rfl
    · rw [(hsame hst).1]
      exact fun id hid => (h.outputs_le st₀ hst id hid).trans hle
    · exact hupto
  · rcases hmem hst with hst | rfl
    · rw [(hsame hst).1]
      exact h.distinct st₀ hst
    · exact hdistinct
  · rcases hmem hst with hst | rfl
    · rw [(hsame hst).1, (hsame hst).2]
      exact h.sources_lt st₀ hst
    · exact fun id hid hne i hi => Nat.lt_of_le_of_lt (hsources i hi) (houtputs id hid hne)
  · rw [hlog, List.pairwise_append]
    refine ⟨h.rises.imp_of_mem fun {st₁ st₂} h₁ h₂ hrise => ?_, List.pairwise_singleton .., ?_⟩
    · rw [Precedes, (hsame h₁).1, (hsame h₁).2, (hsame h₂).1]
      exact hrise
    · -- All that was there was issued before, and so was all that it mentions.
      intro st₁ h₁ st₂ h₂ id hid hne i hi
      rw [List.mem_singleton.mp h₂] at hid
      rw [(hsame h₁).1, (hsame h₁).2] at hi
      refine Nat.lt_of_le_of_lt ?_ (houtputs id hid hne)
      rcases List.mem_append.mp hi with hi | hi
      · exact h.outputs_le st₁ h₁ i hi
      · exact h.bounded.sources_le h₁ i hi

end Ascending

theorem Ascending.single (h : t.Ascending token) {i j : Nat} {st st' : Statement F}
    (hi : t.log[i]? = some st) (hj : t.log[j]? = some st') {id : Identifier} (hne : id ≠ passive)
    (hid : id ∈ t.outputs st) (hid' : id ∈ t.outputs st') : i = j := by
  have hrise {k l : Nat} {u u' : Statement F} (hk : t.log[k]? = some u) (hl : t.log[l]? = some u')
      (hu : id ∈ t.outputs u) (hu' : id ∈ t.outputs u') : ¬ k < l := by
    intro hlt
    obtain ⟨hkt, rfl⟩ := List.getElem?_eq_some_iff.mp hk
    obtain ⟨hlt', rfl⟩ := List.getElem?_eq_some_iff.mp hl
    have hprecedes := List.pairwise_iff_getElem.mp h.rises k l hkt hlt' hlt
    exact Nat.lt_irrefl id (hprecedes id hu' hne id (List.mem_append_left _ hu))
  exact Nat.le_antisymm (not_lt.mp (hrise hj hi hid' hid)) (not_lt.mp (hrise hi hj hid hid'))

def cut (t : Tape F) (p : Position) : Tape F :=
  { t with
    issuer := { t.issuer with largest := p.largest }
    log := t.log.take p.statements
    pending := []
    records := t.records.take p.externals }

structure Climbs (token : Token) (t : Tape F) (ps : List Position) : Prop where
  issuer_eq : t.issuer = .upTo t.issuer.largest
  lent_eq : t.pool.lent = 0
  ascending : t.Ascending token
  before : ∀ p ∈ ps, p.Before t.position
  cut_ascending : ∀ p ∈ ps, (t.cut p).Ascending token
  nested : ps.Pairwise fun p q => q.Before p

structure Rises (token : Token) (t t' : Tape F) : Prop where
  grows : t.Grows token t'
  issuer_eq : t'.issuer = .upTo t'.issuer.largest
  largest_le : t.issuer.largest ≤ t'.issuer.largest
  lent_eq : t'.pool.lent = 0
  ascending : t'.Ascending token

namespace Climbs

variable {ps : List Position}

theorem traits_eq (h : t.Climbs token ps) : t.traits = ⟨t.hasPrimals, true⟩ :=
  congrArg (fun m : Issuer => Traits.mk t.hasPrimals m.policy.isLinear) h.issuer_eq

theorem step (h : t.Climbs token ps) (hs : t.Rises token t') : t'.Climbs token ps := by
  obtain ⟨tail, hlog⟩ := hs.grows.log
  obtain ⟨added, hrecords, -⟩ := hs.grows.records
  refine ⟨hs.issuer_eq, hs.lent_eq, hs.ascending, fun p hp => ?_, fun p hp => ?_, h.nested⟩
  · refine (h.before p hp).trans ⟨?_, ?_, hs.largest_le⟩
    · exact hs.grows.log.length_le
    · change t.records.length ≤ t'.records.length
      exact (hrecords ▸ List.prefix_append t.records added).length_le
  · obtain ⟨hstatements, hexternals, -⟩ := h.before p hp
    refine (h.cut_ascending p hp).rest ?_ nofun ?_ ?_ hs.grows.traits_eq (Nat.le_refl _)
    · rw [cut, hs.issuer_eq]
      exact bounded_upTo _
    · change t'.log.take _ = t.log.take _
      rw [← hlog, List.take_append_of_le_length hstatements]
    · change t'.records.take _ = t.records.take _
      rw [hrecords, List.take_append_of_le_length hexternals]

theorem mark (h : t.Climbs token ps) : t.Climbs token (t.position :: ps) := by
  have hcut : (t.cut t.position).Ascending token := by
    refine h.ascending.rest ?_ nofun List.take_length List.take_length rfl (Nat.le_refl _)
    rw [cut, h.issuer_eq]
    exact bounded_upTo _
  refine ⟨h.issuer_eq, h.lent_eq, h.ascending, ?_, ?_, List.pairwise_cons.mpr ⟨h.before, h.nested⟩⟩
  · exact List.forall_mem_cons.mpr ⟨⟨Nat.le_refl _, Nat.le_refl _, Nat.le_refl _⟩, h.before⟩
  · exact List.forall_mem_cons.mpr ⟨hcut, h.cut_ascending⟩

theorem backTo [LawfulCells F] {kernels : Kernels F} {qs : List Position} {s : Traced F}
    (hk : kernels token = some Product.kernel) (h : t.Climbs token (qs ++ p :: ps))
    (hs : t.backTo kernels p = .ok s) : s.tape.Climbs token (p :: ps) := by
  have hmem {q : Position} (hq : q ∈ p :: ps) : q ∈ qs ++ p :: ps := List.mem_append_right qs hq
  have hnested := (List.pairwise_append.mp h.nested).2.1
  have hbefore := h.before p (hmem List.mem_cons_self)
  have hwithin : ∀ q ∈ p :: ps, q.Before p :=
    List.forall_mem_cons.mpr ⟨⟨Nat.le_refl _, Nat.le_refl _, Nat.le_refl _⟩,
      (List.pairwise_cons.mp hnested).1⟩
  have hrewind : t.issuer.rewind p.largest = .ok (.upTo p.largest) := by
    rw [h.issuer_eq]
    exact if_pos hbefore.largest_le
  obtain ⟨s', hs', pool, hlent, htape⟩ := backTo_yields hk h.lent_eq hbefore.statements_le
    hbefore.externals_le hrewind fun record hrecord =>
      let ⟨c, olds, hstores, _⟩ := h.ascending.bounded.records record (List.mem_of_mem_drop hrecord)
      ⟨c, olds, hstores⟩
  obtain rfl : s' = s := Except.ok.inj (hs'.symm.trans hs)
  have hcut {q : Position} (hq : q ∈ p :: ps) : (s'.tape.cut q).Ascending token := by
    have hle := hwithin q hq
    have htraits : (s'.tape.cut q).traits = (t.cut q).traits := by
      rw [htape]
      exact h.traits_eq.symm
    refine (h.cut_ascending q (hmem hq)).rest ?_ nofun ?_ ?_ htraits (Nat.le_refl _)
    · rw [htape]
      exact bounded_upTo q.largest
    · rw [htape]
      change (t.log.take _).take _ = t.log.take _
      rw [List.take_take, Nat.min_eq_left hle.statements_le]
    · rw [htape]
      change (t.records.take _).take _ = t.records.take _
      rw [List.take_take, Nat.min_eq_left hle.externals_le]
  have hposition : s'.tape.position = p := by
    rw [htape]
    change Position.mk (t.log.take _).length (t.records.take _).length _ = p
    rw [List.length_take_of_le hbefore.statements_le, List.length_take_of_le hbefore.externals_le]
    rfl
  refine ⟨by rw [htape]; rfl, by rw [htape]; exact hlent, ?_, ?_, fun q hq => hcut hq, hnested⟩
  · refine (h.cut_ascending p (hmem List.mem_cons_self)).rest ?_ ?_ ?_ ?_ ?_ ?_
    all_goals rw [htape]
    · exact bounded_upTo p.largest
    · exact nofun
    · rfl
    · rfl
    · exact h.traits_eq.symm
    · exact Nat.le_refl _
  · rw [hposition]
    exact hwithin

end Climbs

end Tape

end Autodiff
