import Autodiff.Proofs.Grounding
import Autodiff.Proofs.Leads
import Autodiff.Proofs.RisingIdentifiers

namespace Autodiff

variable {F : Type} [Scalar F]

open Issuer

namespace Tape

variable {token : Token} {t t' : Tape F}

section Places

variable {x y : Variable F} {xs ys : List (Variable F)}

theorem placeOutput_upTo {n : Identifier} (hm : t.issuer = .upTo n) {active : Bool} {old : F}
    (hy : t.placeOutput x active = .ok (old, y, t')) :
    ∃ m, n ≤ m ∧ t'.issuer = .upTo m ∧ y.identifier ≤ m ∧
      (y.identifier ≠ passive → n < y.identifier) := by
  cases active with
  | true =>
    obtain ⟨z, hz, hy⟩ := exists_of_bind_eq_ok hy
    rw [hm, exchange_upTo] at hz
    cases hz
    cases hy
    exact ⟨n + 1, Nat.le_succ n, rfl, Nat.le_refl _, fun _ => Nat.lt_succ_self n⟩
  | false =>
    obtain ⟨⟨z, t₁⟩, hz, hy⟩ := exists_of_bind_eq_ok hy
    obtain ⟨t₂, h₂, hz⟩ := exists_of_bind_eq_ok hz
    obtain ⟨m, hretire, h₂⟩ := exists_of_bind_eq_ok h₂
    rw [hm, retire_upTo] at hretire
    cases hretire
    cases h₂
    cases hz
    cases hy
    exact ⟨n, Nat.le_refl n, rfl, Nat.zero_le n, fun hne => absurd rfl hne⟩

theorem releaseAll_upTo {n : Identifier} (hm : t.issuer = .upTo n)
    (hys : t.releaseAll xs = .ok (ys, t')) : t'.issuer = .upTo n := by
  induction xs generalizing t ys with
  | nil =>
    cases hys
    exact hm
  | cons x xs ih =>
    obtain ⟨⟨y, t₁⟩, hy, hys⟩ := exists_of_bind_eq_ok hys
    obtain ⟨⟨zs, t₂⟩, hzs, hys⟩ := exists_of_bind_eq_ok hys
    cases hys
    obtain ⟨t₃, h₃, hy⟩ := exists_of_bind_eq_ok hy
    obtain ⟨m, hretire, h₃⟩ := exists_of_bind_eq_ok h₃
    rw [hm, retire_upTo] at hretire
    cases hretire
    cases h₃
    cases hy
    exact ih rfl hzs

structure PlacedUpTo (n : Identifier) (places : List Nat) (ys : List (Variable F)) (t : Tape F) :
    Prop where
  issuer_eq : t.issuer = .upTo t.issuer.largest
  largest_le : n ≤ t.issuer.largest
  lt : ∀ p ∈ places, ∀ y ∈ ys[p]?, y.identifier ≠ passive → n < y.identifier
  le : ∀ p ∈ places, ∀ y ∈ ys[p]?, y.identifier ≤ t.issuer.largest
  ne : ∀ p ∈ places, ∀ q ∈ places, p ≠ q → ∀ y ∈ ys[p]?, ∀ z ∈ ys[q]?,
    y.identifier ≠ passive → y.identifier ≠ z.identifier

theorem placeOutputs_upTo {n : Identifier} (hm : t.issuer = .upTo n) {a a' : Staged F}
    {places : List (Nat × Bool)} (hnodup : (places.map Prod.fst).Nodup)
    (hys : t.placeOutputs xs a places = .ok (ys, a', t')) :
    t'.PlacedUpTo n (places.map Prod.fst) ys := by
  induction places generalizing t xs a n with
  | nil =>
    cases hys
    exact ⟨by rw [hm]; rfl, by rw [hm]; exact Nat.le_refl n, nofun, nofun, nofun⟩
  | cons place places ih =>
    obtain ⟨⟨old, y, t₁⟩, hy, hys⟩ := exists_of_bind_eq_ok hys
    rw [List.map_cons, List.nodup_cons] at hnodup
    have hfirst : ∀ z ∈ ys[place.1]?, z = y := by
      intro z hz
      rw [getElem?_placeOutputs hnodup.1 hys, List.getElem?_set_self'] at hz
      obtain ⟨_, -, rfl⟩ := Option.mem_map.mp hz
      rfl
    obtain ⟨n₁, hle, hm₁, hupto, hlt⟩ := placeOutput_upTo hm hy
    have hrest := ih hm₁ hnodup.2 hys
    refine ⟨hrest.issuer_eq, hle.trans hrest.largest_le, ?_, ?_, ?_⟩
    · rw [List.map_cons, List.forall_mem_cons]
      refine ⟨fun z hz => hfirst z hz ▸ hlt, fun p hp z hz hne => ?_⟩
      exact Nat.lt_of_le_of_lt hle (hrest.lt p hp z hz hne)
    · rw [List.map_cons, List.forall_mem_cons]
      exact ⟨fun z hz => hfirst z hz ▸ hupto.trans hrest.largest_le, hrest.le⟩
    · -- The first one is below all that are issued after it.
      have hbelow {z : Variable F} {p : Nat} (hp : p ∈ places.map Prod.fst) (hz : z ∈ ys[p]?)
          (hne : y.identifier ≠ passive ∨ z.identifier ≠ passive) :
          y.identifier ≠ z.identifier := by
        intro heq
        have hz' : z.identifier ≠ passive := hne.elim (heq ▸ ·) id
        exact absurd (heq ▸ hupto) (not_le.mpr (hrest.lt p hp z hz hz'))
      rw [List.map_cons]
      intro p hp q hq hpq u hu z hz hne
      rcases List.mem_cons.mp hp with rfl | hp
      · rcases List.mem_cons.mp hq with rfl | hq
        · exact absurd rfl hpq
        · rw [hfirst u hu] at hne ⊢
          exact hbelow hq hz (.inl hne)
      · rcases List.mem_cons.mp hq with rfl | hq
        · rw [hfirst z hz]
          exact (hbelow hp hu (.inr hne)).symm
        · exact hrest.ne p hp q hq hpq u hu z hz hne

theorem PlacedUpTo.distinct {n : Identifier} {places : List Nat} (h : t.PlacedUpTo n places ys)
    (hall : ∀ p < ys.length, p ∈ places) : DistinctActive (ys.map Variable.identifier) := by
  rw [DistinctActive, List.pairwise_map, List.pairwise_iff_getElem]
  intro p q hp hq hlt hne
  exact h.ne p (hall p hp) q (hall q hq) hlt.ne _ (List.getElem?_eq_getElem hp) _
    (List.getElem?_eq_getElem hq) hne

theorem PlacedUpTo.bounds {n : Identifier} {places : List Nat} (h : t.PlacedUpTo n places ys)
    (hall : ∀ p < ys.length, p ∈ places) {id : Identifier} (hid : id ∈ ys.map Variable.identifier) :
    (id ≠ passive → n < id) ∧ id ≤ t.issuer.largest := by
  obtain ⟨y, hy, rfl⟩ := List.mem_map.mp hid
  obtain ⟨p, hp, rfl⟩ := List.getElem_of_mem hy
  exact ⟨h.lt p (hall p hp) _ (List.getElem?_eq_getElem hp),
    h.le p (hall p hp) _ (List.getElem?_eq_getElem hp)⟩

end Places

section Steps

variable {ps : List Position} (h : t.Climbs token ps) {x y : Variable F} {xs ys : List (Variable F)}
  {value : F}

theorem Climbs.rests (h : t.Climbs token ps) (hgrows : t.Grows token t') (hlog : t'.log = t.log)
    (hrecords : t'.records = t.records) (hlent : t'.pool.lent = t.pool.lent) {n : Identifier}
    (hm : t'.issuer = .upTo n) (hle : t.issuer.largest ≤ n)
    (hpending : ∀ a ∈ t'.pending, a.1 ≤ n) : t.Rises token t' := by
  have hlargest : t'.issuer.largest = n := congrArg Issuer.largest hm
  refine ⟨hgrows, hlargest.symm ▸ hm, hlargest.symm ▸ hle, hlent.trans h.lent_eq, ?_⟩
  refine h.ascending.rest (hm ▸ bounded_upTo n) (hlargest.symm ▸ hpending) hlog hrecords
    hgrows.traits_eq (hlargest.symm ▸ hle)

include h

theorem addArgument_rises {id : Identifier} (hid : id ≤ t.issuer.largest) (weight : F) :
    t.Rises token (t.addArgument id weight) := by
  have hgrows : t.Grows token (t.addArgument id weight) := .addArguments t [(id, weight)]
  rw [addArgument] at hgrows ⊢
  split
  case isTrue =>
    exact h.rests (.refl t) rfl rfl rfl h.issuer_eq (Nat.le_refl _) h.ascending.bounded.pending_le
  case isFalse hne =>
    rw [if_neg hne] at hgrows
    refine h.rests hgrows rfl rfl rfl h.issuer_eq (Nat.le_refl _) fun a ha => ?_
    rcases List.mem_append.mp ha with ha | ha
    · exact h.ascending.bounded.pending_le a ha
    · rw [List.mem_singleton.mp ha]
      exact hid

theorem append_rises [LawfulCells F] {pending : List (Identifier × F)}
    (hpending : ∀ a ∈ pending, a.1 ≤ t.issuer.largest) :
    t.Rises token (({ t with issuer := .upTo (t.issuer.largest + 1), pending := pending } :
      Tape F).append (t.issuer.largest + 1) .elementary value) := by
  have hpolicy : t.issuer.policy = .linear := congrArg Issuer.policy h.issuer_eq
  have hissued := h.ascending.bounded.withIssuer (bounded_upTo (t.issuer.largest + 1))
    (Nat.le_succ _) hpolicy.symm
  have hbounded : Bounded token
      { t with issuer := .upTo (t.issuer.largest + 1), pending := pending } :=
    ⟨hissued.issuer, fun a ha => (hpending a ha).trans (Nat.le_succ _), hissued.log,
      hissued.records⟩
  have htaken : t.Grows token
      { t with issuer := .upTo (t.issuer.largest + 1), pending := pending } :=
    .of_records_eq List.prefix_rfl rfl rfl hpolicy.symm
  have hgrows := htaken.trans (.append _ (t.issuer.largest + 1) .elementary value)
  refine ⟨hgrows, rfl, Nat.le_succ _, h.lent_eq, ?_⟩
  refine h.ascending.extend (hbounded.append value (Nat.le_refl _) nofun) rfl
    (List.append_nil _).symm hgrows.traits_eq (Nat.le_succ _) ?_ ?_ (List.pairwise_singleton ..) ?_
  · intro id hid _
    rw [List.mem_singleton.mp hid]
    exact Nat.lt_succ_self _
  · intro id hid
    rw [List.mem_singleton.mp hid]
    exact Nat.le_refl _
  · intro i hi
    change i ∈ pending.map Prod.fst ++ [] at hi
    rw [List.append_nil] at hi
    obtain ⟨a, ha, rfl⟩ := List.mem_map.mp hi
    exact hpending a ha

theorem closeStatement_rises [LawfulCells F] (lhs : Identifier) (value : F) :
    t.Rises token (t.closeStatement lhs value).2 := by
  have hclosed : (t.closeStatement lhs value).2 =
      ({ t with issuer := .upTo (t.issuer.largest + 1) } : Tape F).append (t.issuer.largest + 1)
        .elementary value := by
    rw [closeStatement, h.issuer_eq]
    rfl
  rw [hclosed]
  exact append_rises h h.ascending.bounded.pending_le

theorem release_rises (hy : t.release x = .ok (y, t')) : t.Rises token t' := by
  obtain ⟨t₁, h₁, hy⟩ := exists_of_bind_eq_ok hy
  obtain ⟨m, hm, h₁⟩ := exists_of_bind_eq_ok h₁
  rw [h.issuer_eq, retire_upTo] at hm
  cases hm
  cases h₁
  cases hy
  have hpolicy : t.issuer.policy = .linear := congrArg Issuer.policy h.issuer_eq
  exact h.rests (.withIssuer hpolicy.symm) rfl rfl rfl rfl (Nat.le_refl _)
    h.ascending.bounded.pending_le

theorem assign_rises [LawfulCells F] {args : List (Identifier × F)}
    (hargs : ∀ a ∈ args, a.1 ≤ t.issuer.largest) (hy : t.assign x value args = .ok (y, t')) :
    t.Rises token t' := by
  cases hpassive : args.all fun a => a.1 == passive with
  | true =>
    rw [assign, if_pos hpassive] at hy
    exact release_rises h hy
  | false =>
    rw [assign_eq _ _ hpassive, addArguments_eq, h.issuer_eq] at hy
    cases hy
    refine append_rises h fun a ha => ?_
    rcases List.mem_append.mp ha with ha | ha
    · exact h.ascending.bounded.pending_le a ha
    · exact hargs a (List.mem_of_mem_filter ha)

theorem output_rises [LawfulCells F] (hx : x.identifier ≤ t.issuer.largest)
    (hy : t.output x = .ok (y, t')) : t.Rises token t' := by
  by_cases hpassive : x.identifier = passive
  · rw [output, if_pos hpassive] at hy
    cases hy
    exact h.rests (.refl t) rfl rfl rfl h.issuer_eq (Nat.le_refl _) h.ascending.bounded.pending_le
  · obtain ⟨m, hm, rfl, rfl⟩ := output_cases hpassive hy
    rw [h.issuer_eq] at hm
    cases hm
    rw [h.issuer_eq]
    refine append_rises h fun a ha => ?_
    rcases List.mem_append.mp ha with ha | ha
    · exact h.ascending.bounded.pending_le a ha
    · rw [List.mem_singleton.mp ha]
      exact hx

theorem input_rises (hy : t.input x = .ok (y, t')) : t.Rises token t' := by
  have hgrows : t.Grows token t' := .input hy
  obtain ⟨z, hz, hy⟩ := exists_of_bind_eq_ok hy
  rw [h.issuer_eq, exchange_upTo] at hz
  cases hz
  have hrolls : ({ t with issuer := .upTo (t.issuer.largest + 1) } : Tape F).traits.rollsBack =
      false := Bool.and_false _
  dsimp only at hy
  rw [hrolls] at hy
  cases hy
  exact h.rests hgrows rfl rfl rfl rfl (Nat.le_succ _) fun a ha =>
    (h.ascending.bounded.pending_le a ha).trans (Nat.le_succ _)

theorem multiply_rises [LawfulCells F] {kernels : Kernels F} {order : MatrixOrder}
    {rows inner cols : Nat} {a b : List (Variable F)}
    (hfactors : ∀ x ∈ a ++ b, x.identifier ≤ t.issuer.largest)
    (hys : Product.multiply t kernels token order rows inner cols a b xs = .ok (ys, t')) :
    t.Rises token t' := by
  have hgrows : t.Grows token t' := .multiply hys
  obtain ⟨hlength, ⟨-, hys⟩ | ⟨-, t₁, record, sr, sr', pool, pool', hplaced, hsame, hstores, hlent,
    ht'⟩⟩ := Product.exists_placed_of_multiply_eq_ok hys
  · have hsame := releaseAll_sameLog hys
    refine h.rests hgrows hsame.log_eq hsame.records_eq (congrArg Pool.lent hsame.pool_eq)
      (releaseAll_upTo h.issuer_eq hys) (Nat.le_refl _) ?_
    rw [hsame.pending_eq]
    exact h.ascending.bounded.pending_le
  · have hnodup : ((Product.places order rows inner cols a b).map Prod.fst).Nodup := by
      rw [Product.places, List.map_map]
      exact order.nodup_offsets rows cols
    have hrise := placeOutputs_upTo (t := { t with pool := pool }) h.issuer_eq hnodup hplaced
    have hall : ∀ p < ys.length, p ∈ (Product.places order rows inner cols a b).map Prod.fst := by
      intro p hp
      apply Product.mem_places
      have hcount := hstores.fits.results
      rw [List.length_map] at hcount
      exact hcount ▸ hp
    have hplain : t₁.Ascending token := by
      refine h.ascending.rest (hrise.issuer_eq ▸ bounded_upTo _) ?_ hsame.log_eq hsame.records_eq
        hsame.traits_eq hrise.largest_le
      rw [hsame.pending_eq]
      exact fun a ha => (h.ascending.bounded.pending_le a ha).trans hrise.largest_le
    have hwithin : record.Within t₁.traits token t₁.issuer.largest :=
      ⟨_, _, hstores, Product.settled_of_placeOutputs (h.ascending.bounded.stage pool) hlength
        hplaced, fun x hx => (hfactors x hx).trans hrise.largest_le⟩
    have hbounded : t'.Bounded token := ht' ▸ (hplain.bounded.record hwithin).stage pool'
    have hissuer : t'.issuer = t₁.issuer := ht' ▸ rfl
    have hrecords : t'.records = t.records ++ [record] :=
      ht' ▸ congrArg (· ++ [record]) hsame.records_eq
    obtain ⟨st, hlog, hkind, hargs⟩ : ∃ st, t'.log = t.log ++ [st] ∧
        st.kind = .external t.records.length ∧ st.arguments = t.pending := by
      have hlog : t'.log = t₁.log ++ [⟨passive, .external t₁.records.length, t₁.pending,
        t₁.overwriteOf passive 0⟩] := ht' ▸ rfl
      rw [hsame.log_eq, hsame.records_eq, hsame.pending_eq] at hlog
      exact ⟨_, hlog, rfl, rfl⟩
    have houtputs : t'.outputs st = ys.map Variable.identifier := by
      rw [hsame.traits_eq] at hstores
      simp only [outputs, hkind, hrecords, List.getElem?_concat_length, hgrows.traits_eq,
        Option.map_some, Option.getD_some]
      exact hstores.results_eq
    have hsources : ∀ i ∈ t'.sources st, i ≤ t.issuer.largest := by
      rw [hsame.traits_eq] at hstores
      intro i hi
      simp only [sources, factors, hkind, hargs, hrecords, List.getElem?_concat_length,
        hgrows.traits_eq, Option.map_some, Option.getD_some] at hi
      rcases List.mem_append.mp hi with hi | hi
      · obtain ⟨a, ha, rfl⟩ := List.mem_map.mp hi
        exact h.ascending.bounded.pending_le a ha
      · obtain ⟨x, hx, rfl⟩ := hstores.exists_of_mem_factors hi
        exact hfactors x hx
    refine ⟨hgrows, hissuer ▸ hrise.issuer_eq, hissuer ▸ hrise.largest_le, ?_, ?_⟩
    · rw [ht']
      exact hlent.trans h.lent_eq
    · refine h.ascending.extend hbounded hlog hrecords hgrows.traits_eq
        (hissuer ▸ hrise.largest_le) ?_ ?_ ?_ hsources
      all_goals rw [houtputs]
      · exact fun id hid => (hrise.bounds hall hid).1
      · exact fun id hid => hissuer ▸ (hrise.bounds hall hid).2
      · exact hrise.distinct hall

end Steps

section Charted

variable {kernels : Kernels F}

/-- The linear tapes that recording and resets lead to, each with positions that its recording has
passed through, the last one first. All arguments were issued by the tape. -/
inductive Charted (kernels : Kernels F) (token : Token) : Tape F → List Position → Prop
  | new (kind : TapeKind) : Charted kernels token (.new .linear kind) []
  | mark {t ps} (h : Charted kernels token t ps) : Charted kernels token t (t.position :: ps)
  | addArgument {t ps id} (h : Charted kernels token t ps) (hid : id ≤ t.issuer.largest)
      (weight : F) : Charted kernels token (t.addArgument id weight) ps
  | closeStatement {t ps} (h : Charted kernels token t ps) (lhs : Identifier) (value : F) :
      Charted kernels token (t.closeStatement lhs value).2 ps
  | assign {t ps x value args y t'} (h : Charted kernels token t ps)
      (hargs : ∀ a ∈ args, a.1 ≤ t.issuer.largest) (hy : t.assign x value args = .ok (y, t')) :
      Charted kernels token t' ps
  | input {t ps x y t'} (h : Charted kernels token t ps) (hy : t.input x = .ok (y, t')) :
      Charted kernels token t' ps
  | output {t ps x y t'} (h : Charted kernels token t ps) (hx : x.identifier ≤ t.issuer.largest)
      (hy : t.output x = .ok (y, t')) : Charted kernels token t' ps
  | multiply {t ps order rows inner cols a b xs ys t'} (h : Charted kernels token t ps)
      (hfactors : ∀ x ∈ a ++ b, x.identifier ≤ t.issuer.largest)
      (hys : Product.multiply t kernels token order rows inner cols a b xs = .ok (ys, t')) :
      Charted kernels token t' ps
  | backTo {t qs p ps s} (h : Charted kernels token t (qs ++ p :: ps))
      (hs : t.backTo kernels p = .ok s) : Charted kernels token s.tape (p :: ps)

variable {ps : List Position}

theorem Charted.climbs [LawfulCells F] (hk : kernels token = some Product.kernel)
    (h : t.Charted kernels token ps) : t.Climbs token ps := by
  induction h with
  | new kind => exact ⟨rfl, rfl, ascending_new token .linear kind, nofun, nofun, .nil⟩
  | mark _ ih => exact ih.mark
  | addArgument _ hid weight ih => exact ih.step (addArgument_rises ih hid weight)
  | closeStatement _ lhs value ih => exact ih.step (closeStatement_rises ih lhs value)
  | assign _ hargs hy ih => exact ih.step (assign_rises ih hargs hy)
  | input _ hy ih => exact ih.step (input_rises ih hy)
  | output _ hx hy ih => exact ih.step (output_rises ih hx hy)
  | multiply _ hfactors hys ih => exact ih.step (multiply_rises ih hfactors hys)
  | backTo _ hs ih => exact ih.backTo hk hs

theorem Charted.grounded (h : t.Charted kernels token ps) : t.Grounded := by
  induction h with
  | new kind => exact grounded_new .linear kind
  | mark _ ih => exact ih
  | addArgument _ _ weight ih => exact (Records.addArgument _ _ weight).leads.grounded ih
  | closeStatement _ lhs value ih => exact (Records.closeStatement _ lhs value).leads.grounded ih
  | assign _ _ hy ih => exact (Records.assign hy).leads.grounded ih
  | input _ hy ih => exact (Records.input hy).leads.grounded ih
  | output _ _ hy ih => exact (Records.output hy).leads.grounded ih
  | multiply _ _ hys ih => exact (Records.multiply hys).leads.grounded ih
  | backTo _ hs ih => exact ih.backTo hs

end Charted

end Tape

end Autodiff
